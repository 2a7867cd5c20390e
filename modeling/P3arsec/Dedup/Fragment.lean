import P3arsec.Dedup.PipeOfFarms

/-!
# The fragmentation stage

`Fragment` reads the input block by block, from a preloaded buffer or with `read`, and cuts each
block into coarse chunks: at least `ANCHOR_JUMP` bytes and the bytes up to the next Rabin anchor.
What is left of a block is put in front of the next one and keeps its sequence number, until
nothing more can be read.

The exits on exhausted memory, on a buffer beyond `SSIZE_MAX` and on an error of `read` are left
out. A memory buffer is the list of the bytes written to it, so shrinking it to its actual size
leaves it as it is.

The offset of an anchor and its sum with `ANCHOR_JUMP` are of type `int`, and a stretch without an
anchor can be longer than an `int` says. `Fragment.buffers` are the buffers in which an anchor is
looked for, and the stage is right when the two are right in each of them (`Fragment.Sound`).
-/

namespace P3arsec.Dedup

/-- The constants of the fragmentation, and the Rabin fingerprint search. -/
structure FragmentConfig where
  /-- `MAXBUF`. -/
  maxbuf : Nat
  /-- `ANCHOR_JUMP`. -/
  anchorJump : Nat
  /-- `rabinseg` with the window of the data process. -/
  rabinseg : Bytes → Nat
  /-- A block has room. -/
  maxbuf_pos : 0 < maxbuf
  /-- `ANCHOR_JUMP` is an `int`. -/
  anchorJump_lt : anchorJump < 2 ^ 31

/-- Where the input comes from. -/
inductive Source where
  /-- `args->input_file.buffer` and `preloading_buffer_seek`. -/
  | preloaded (buffer : Bytes) (preloadingBufferSeek : Nat)
  /-- What is left of the file, and the number of calls of `read`. -/
  | stream (rest : Bytes) (calls : Nat)
  deriving DecidableEq, Repr

namespace Source

/-- The bytes that have not been read. -/
def remaining : Source → Bytes
  | .preloaded buffer preloadingBufferSeek => buffer.drop preloadingBufferSeek
  | .stream rest _ => rest

/-- The result of `read`: at the end of the file 0, and otherwise any number of bytes from 1 to
those that are wanted and left. -/
def sysRead (sizes : Nat → Nat) (calls wanted : Nat) (rest : Bytes) : Nat :=
  min (sizes calls + 1) (min wanted rest.length)

/-- The loop that reads until the buffer is full. -/
def readLoop (maxbuf : Nat) (sizes : Nat → Nat) (calls : Nat) (bytesRead rest : Bytes) :
    Bytes × Source :=
  if bytesRead.length < maxbuf then
    let r := sysRead sizes calls (maxbuf - bytesRead.length) rest
    if r = 0 then (bytesRead, .stream rest (calls + 1))
    else readLoop maxbuf sizes (calls + 1) (bytesRead ++ rest.take r) (rest.drop r)
  else (bytesRead, .stream rest calls)
  termination_by maxbuf - bytesRead.length
  decreasing_by
    rename_i room some
    have least : r ≤ rest.length := by
      simp only [r, sysRead]
      omega
    have positive : 0 < r := Nat.pos_of_ne_zero some
    rw [List.length_append, List.length_take, min_eq_left least]
    omega

/-- Read data until the buffer is full. -/
def readBlock (maxbuf : Nat) (sizes : Nat → Nat) : Source → Bytes × Source
  | .preloaded buffer preloadingBufferSeek =>
    let maxRead := min maxbuf (buffer.length - preloadingBufferSeek)
    ((buffer.drop preloadingBufferSeek).take maxRead,
      .preloaded buffer (preloadingBufferSeek + maxRead))
  | .stream rest calls => readLoop maxbuf sizes calls [] rest

/-- Whatever the sizes of the reads are, the loop reads until the buffer or the file ends. -/
theorem readLoop_spec (maxbuf : Nat) (sizes : Nat → Nat) (calls : Nat) (bytesRead rest : Bytes) :
    (readLoop maxbuf sizes calls bytesRead rest).1 =
      bytesRead ++ rest.take (maxbuf - bytesRead.length) ∧
    (readLoop maxbuf sizes calls bytesRead rest).2.remaining =
      rest.drop (maxbuf - bytesRead.length) := by
  induction calls, bytesRead, rest using readLoop.induct maxbuf sizes with
  | case1 calls bytesRead rest room r done =>
    rw [readLoop, if_pos room]
    have stopped : sysRead sizes calls (maxbuf - bytesRead.length) rest = 0 := done
    dsimp only
    rw [if_pos stopped]
    have ended : rest = [] := by
      rw [sysRead] at stopped
      apply List.eq_nil_of_length_eq_zero
      omega
    subst ended
    simp [remaining]
  | case2 calls bytesRead rest room r more ih =>
    rw [readLoop, if_pos room]
    have moved : sysRead sizes calls (maxbuf - bytesRead.length) rest ≠ 0 := more
    dsimp only
    rw [if_neg moved]
    have bound : r ≤ maxbuf - bytesRead.length ∧ r ≤ rest.length := by
      simp only [r, sysRead]
      omega
    have size : (rest.take r).length = r := by
      rw [List.length_take, min_eq_left bound.2]
    have left : maxbuf - (bytesRead ++ rest.take r).length = maxbuf - bytesRead.length - r := by
      rw [List.length_append, size]
      omega
    rw [left] at ih
    have whole : maxbuf - bytesRead.length = r + (maxbuf - bytesRead.length - r) := by omega
    refine ⟨ih.1.trans ?_, ih.2.trans ?_⟩
    · rw [List.append_assoc, ← List.take_add, ← whole]
    · rw [List.drop_drop, ← whole]
  | case3 calls bytesRead rest full =>
    rw [readLoop, if_neg full]
    have nothing : maxbuf - bytesRead.length = 0 := by omega
    simp [nothing, remaining]

/-- In both modes a block is what fits of the bytes that have not been read. -/
theorem readBlock_spec (maxbuf : Nat) (sizes : Nat → Nat) (source : Source) :
    (source.readBlock maxbuf sizes).1 = source.remaining.take maxbuf ∧
    (source.readBlock maxbuf sizes).2.remaining = source.remaining.drop maxbuf := by
  cases source with
  | preloaded buffer preloadingBufferSeek =>
    simp only [readBlock, remaining, ← List.drop_drop]
    rw [← List.length_drop, min_comm]
    constructor
    · rw [List.take_eq_take_iff, List.length_drop]
      omega
    · rcases Nat.le_total (buffer.drop preloadingBufferSeek).length maxbuf with small | large
      · rw [min_eq_left small, List.drop_eq_nil_of_le small, List.drop_eq_nil_of_le le_rfl]
      · rw [min_eq_right large]
  | stream rest calls => exact readLoop_spec maxbuf sizes calls [] rest

end Source

/-- `mbuffer_split`, with its assertions. -/
def mbufferSplit (data : Bytes) (split : Nat) : Option (Bytes × Bytes) :=
  if 0 < split ∧ split < data.length then some (data.take split, data.drop split) else none

/-- The second part of a buffer is shorter than the buffer. -/
theorem mbufferSplit_length {data : Bytes} {split : Nat} {pair : Bytes × Bytes}
    (same : mbufferSplit data split = some pair) : pair.2.length < data.length := by
  unfold mbufferSplit at same
  split at same
  · obtain rfl := Option.some.inj same
    rw [List.length_drop]
    omega
  · cases same

/-- A coarse chunk. `FragmentRefine` sets the second number and the mark. -/
def coarseChunk (l1num : Nat) (data : Bytes) : DataChunk := ⟨⟨⟨l1num, 0⟩, false⟩, data⟩

namespace Fragment

variable (cfg : FragmentConfig) (sizes : Nat → Nat)

/-- The loop that partitions a block: the chunks inserted into the send buffer, the chunk that is
left over in `temp`, and `anchorcount`. -/
def splitLoop (chunk : DataChunk) (anchorcount : Nat) : Option (List DataChunk × DataChunk × Nat) :=
  if cfg.anchorJump < chunk.data.length then
    let offset := toInt (cfg.rabinseg (chunk.data.drop cfg.anchorJump))
    -- a split at the very beginning fails an assertion
    if offset = 0 then none
    -- the sum overflows
    else if 2 ^ 31 ≤ offset + cfg.anchorJump then none
    -- the size is a `size_t`, and as such a negative sum is greater than every size
    else if 0 ≤ offset + cfg.anchorJump ∧ offset + cfg.anchorJump < chunk.data.length then
      match _ : mbufferSplit chunk.data (offset + cfg.anchorJump).toNat with
      | none => none
      | some pair => do
        let (sent, temp, anchorcount) ←
          splitLoop (coarseChunk anchorcount pair.2) ((anchorcount + 1) % 2 ^ 32)
        some ({ chunk with data := pair.1 } :: sent, temp, anchorcount)
    else some ([], chunk, anchorcount)
  else some ([], chunk, anchorcount)
  termination_by chunk.data.length
  decreasing_by exact mbufferSplit_length ‹_›

/-- The outer loop: the chunks inserted into the send buffer. -/
def run (temp : Option DataChunk) (anchorcount : Nat) (source : Source) :
    Option (List DataChunk) :=
  let bytesLeft := (temp.elim [] DataChunk.data).length
  -- a left-over chunk is extended and keeps its number, otherwise a new number is taken
  let (chunk, anchorcount) := match temp with
    | some temp =>
      if 0 < bytesLeft then (coarseChunk temp.sequence.l1num temp.data, anchorcount)
      else (coarseChunk anchorcount [], (anchorcount + 1) % 2 ^ 32)
    | none => (coarseChunk anchorcount [], (anchorcount + 1) % 2 ^ 32)
  let block := source.readBlock cfg.maxbuf sizes
  if bytesLeft + block.1.length = 0 then some []
  else
    let chunk := { chunk with data := chunk.data ++ block.1 }
    if block.1.length = 0 then some [chunk]
    else do
      let (sent, temp, anchorcount) ← splitLoop cfg chunk anchorcount
      let rest ← run (some temp) anchorcount block.2
      some (sent ++ rest)
  termination_by source.remaining.length
  decreasing_by
    rename_i some
    have spec := source.readBlock_spec cfg.maxbuf sizes
    have left : block.1.length ≠ 0 := some
    rw [spec.1, List.length_take] at left
    have positive := cfg.maxbuf_pos
    rw [spec.2, List.length_drop]
    omega

/-- The chunks that `Fragment` cuts out of an input. -/
def chunks (source : Source) : Option (List DataChunk) := run cfg sizes none 0 source

/-- An anchor is found behind the beginning and not behind the end of its data. -/
def Anchored (rabinseg : Bytes → Nat) : Prop :=
  ∀ data, 0 < data.length → 0 < rabinseg data ∧ rabinseg data ≤ data.length

/-- `offset + ANCHOR_JUMP` in a buffer. -/
def anchor (data : Bytes) : Int := toInt (cfg.rabinseg (data.drop cfg.anchorJump)) + cfg.anchorJump

/-- The offset in a buffer and its sum with `ANCHOR_JUMP` are not 0, and the sum is an `int`. -/
def Sound (data : Bytes) : Prop := cfg.anchorJump < data.length →
  toInt (cfg.rabinseg (data.drop cfg.anchorJump)) ≠ 0 ∧ anchor cfg data ≠ 0 ∧
    anchor cfg data < 2 ^ 31

/-- A buffer is cut. -/
def Splits (data : Bytes) : Prop :=
  cfg.anchorJump < data.length ∧ 0 < anchor cfg data ∧ anchor cfg data < data.length

instance : DecidablePred (Splits cfg) := fun _ => inferInstanceAs (Decidable (_ ∧ _ ∧ _))

/-- What is left of a buffer that is cut. -/
def rest (data : Bytes) : Bytes := data.drop (anchor cfg data).toNat

variable {cfg} in
/-- Less is left of a buffer that is cut, and not nothing. -/
theorem Splits.length_rest {data : Bytes} (splits : Splits cfg data) :
    0 < (rest cfg data).length ∧ (rest cfg data).length < data.length := by
  obtain ⟨-, positive, inside⟩ := splits
  rw [rest, List.length_drop]
  omega

/-- The buffers in which the loop looks for an anchor: a block, and what is left of it. -/
def remainders (data : Bytes) : List Bytes :=
  if _ : Splits cfg data then data :: remainders (rest cfg data) else [data]
  termination_by data.length
  decreasing_by exact Splits.length_rest ‹_› |>.2

/-- What the loop leaves over of a block. -/
def leftover (data : Bytes) : Bytes :=
  if _ : Splits cfg data then leftover (rest cfg data) else data
  termination_by data.length
  decreasing_by exact Splits.length_rest ‹_› |>.2

/-- The buffers in which an anchor is looked for, from what is left over and what has not been
read. -/
def buffers (before unread : Bytes) : List Bytes :=
  if unread = [] then []
  else
    let block := before ++ unread.take cfg.maxbuf
    remainders cfg block ++ buffers (leftover cfg block) (unread.drop cfg.maxbuf)
  termination_by unread.length
  decreasing_by
    rename_i some
    have positive := cfg.maxbuf_pos
    have more := List.length_pos_iff.mpr some
    rw [List.length_drop]
    omega

/-- How many of some buffers are cut. -/
def cuts (data : List Bytes) : Nat := data.countP (Splits cfg)

variable {cfg sizes} {chunk : DataChunk} {anchorcount : Nat}

/-- A chunk with a right anchor in the middle is cut there. -/
theorem splitLoop_cut (sound : Sound cfg chunk.data) (splits : Splits cfg chunk.data) :
    splitLoop cfg chunk anchorcount =
      (splitLoop cfg (coarseChunk anchorcount (rest cfg chunk.data))
        ((anchorcount + 1) % 2 ^ 32)).map
          fun (sent, temp, count) =>
            ({ chunk with data := chunk.data.take (anchor cfg chunk.data).toNat } :: sent, temp,
              count) := by
  obtain ⟨jump, positive, inside⟩ := splits
  obtain ⟨found, -, small⟩ := sound jump
  rw [anchor] at small
  have middle : 0 ≤ toInt (cfg.rabinseg (chunk.data.drop cfg.anchorJump)) + cfg.anchorJump ∧
      toInt (cfg.rabinseg (chunk.data.drop cfg.anchorJump)) + cfg.anchorJump <
        chunk.data.length := ⟨positive.le, inside⟩
  rw [splitLoop, if_pos jump]
  dsimp only
  rw [if_neg found, if_neg (not_le.mpr small), if_pos middle]
  have parts : mbufferSplit chunk.data (anchor cfg chunk.data).toNat = some
      (chunk.data.take (anchor cfg chunk.data).toNat, rest cfg chunk.data) :=
    if_pos (by omega)
  split
  · rename_i none
    rw [← anchor, parts] at none
    cases none
  · rename_i pair same
    rw [← anchor, parts] at same
    obtain rfl := Option.some.inj same
    rw [Option.map_eq_bind]
    rfl

/-- A chunk without an anchor in the middle is left over. -/
theorem splitLoop_keep (sound : Sound cfg chunk.data) (whole : ¬Splits cfg chunk.data) :
    splitLoop cfg chunk anchorcount = some ([], chunk, anchorcount) := by
  rw [splitLoop]
  split
  · rename_i jump
    obtain ⟨found, other, small⟩ := sound jump
    have outside : ¬(0 ≤ toInt (cfg.rabinseg (chunk.data.drop cfg.anchorJump)) + cfg.anchorJump ∧
        toInt (cfg.rabinseg (chunk.data.drop cfg.anchorJump)) + cfg.anchorJump <
          chunk.data.length) :=
      fun middle => whole ⟨jump, lt_of_le_of_ne middle.1 other.symm, middle.2⟩
    rw [anchor] at small
    dsimp only
    rw [if_neg found, if_neg (not_le.mpr small), if_neg outside]
  · rfl

/-- The loop fails at an anchor that is not right. -/
theorem splitLoop_unsound (unsound : ¬Sound cfg chunk.data) :
    splitLoop cfg chunk anchorcount = none := by
  obtain ⟨jump, wrong⟩ := Classical.not_imp.mp unsound
  rw [splitLoop, if_pos jump]
  dsimp only
  split
  · rfl
  · rename_i found
    split
    · rfl
    · rename_i small
      have zero : anchor cfg chunk.data = 0 := by
        by_contra other
        exact wrong ⟨found, other, not_le.mp small⟩
      have middle : 0 ≤ toInt (cfg.rabinseg (chunk.data.drop cfg.anchorJump)) + cfg.anchorJump ∧
          toInt (cfg.rabinseg (chunk.data.drop cfg.anchorJump)) + cfg.anchorJump <
            chunk.data.length := by
        rw [← anchor, zero]
        omega
      rw [if_pos middle]
      have nowhere : mbufferSplit chunk.data (anchor cfg chunk.data).toNat = none :=
        if_neg (by omega)
      split
      · rfl
      · rename_i pair same
        rw [← anchor, nowhere] at same
        cases same

/-- Chunks that make up some bytes, none of them empty, with consecutive numbers. -/
structure Cut (first : Nat) (data : Bytes) (chunks : List DataChunk) : Prop where
  /-- The chunks concatenate to the bytes. -/
  whole : chunks.flatMap DataChunk.data = data
  /-- No chunk is empty. -/
  nonempty : ∀ chunk ∈ chunks, chunk.data ≠ []
  /-- The numbers are consecutive 32-bit numbers. -/
  numbered : chunks.map (fun chunk => chunk.sequence.l1num) =
    (List.range' first chunks.length).map (· % 2 ^ 32)

/-- One chunk. -/
theorem Cut.single {first : Nat} {chunk : DataChunk} (nonempty : chunk.data ≠ [])
    (number : chunk.sequence.l1num = first % 2 ^ 32) : Cut first chunk.data [chunk] where
  whole := by simp
  nonempty := by simpa using nonempty
  numbered := by simpa using number

/-- Chunks behind other chunks. -/
theorem Cut.append {first : Nat} {data more : Bytes} {chunks rest : List DataChunk}
    (cut : Cut first data chunks) (cut' : Cut (first + chunks.length) more rest) :
    Cut first (data ++ more) (chunks ++ rest) where
  whole := by rw [List.flatMap_append, cut.whole, cut'.whole]
  nonempty chunk member := by
    rcases List.mem_append.mp member with here | here
    · exact cut.nonempty chunk here
    · exact cut'.nonempty chunk here
  numbered := by
    rw [List.map_append, cut.numbered, cut'.numbered, List.length_append, ← List.map_append,
      List.range'_append_1]

/-- The chunks before the last one. -/
theorem Cut.front {first : Nat} {data : Bytes} {chunks : List DataChunk} {last : DataChunk}
    (cut : Cut first data (chunks ++ [last])) :
    Cut first (chunks.flatMap DataChunk.data) chunks ∧
      chunks.flatMap DataChunk.data ++ last.data = data ∧ last.data ≠ [] ∧
      last.sequence.l1num = (first + chunks.length) % 2 ^ 32 := by
  have numbered := cut.numbered
  rw [List.length_append, List.length_singleton, List.range'_concat, List.map_append,
    List.map_append] at numbered
  obtain ⟨before, here⟩ := List.append_inj' numbered rfl
  refine ⟨⟨rfl, fun chunk member => ?_, before⟩, ?_, cut.nonempty last (by simp), ?_⟩
  · exact cut.nonempty chunk (List.mem_append_left _ member)
  · have whole := cut.whole
    rwa [List.flatMap_append, List.flatMap_singleton] at whole
  · simpa using here

/-- A chunk with a block in it is not empty. -/
theorem coarseChunk_ne_nil {l1num : Nat} {before block : Bytes} (more : block.length ≠ 0) :
    (coarseChunk l1num (before ++ block)).data ≠ [] := by
  intro gone
  exact more (congrArg List.length (List.append_eq_nil_iff.mp gone).2)

/-- The buffers of a block that is cut. -/
theorem remainders_of_splits {data : Bytes} (splits : Splits cfg data) :
    remainders cfg data = data :: remainders cfg (rest cfg data) ∧
      leftover cfg data = leftover cfg (rest cfg data) := by
  rw [remainders, leftover, dif_pos splits, dif_pos splits]
  exact ⟨rfl, rfl⟩

/-- The buffer of a block that is not cut. -/
theorem remainders_of_not {data : Bytes} (whole : ¬Splits cfg data) :
    remainders cfg data = [data] ∧ leftover cfg data = data := by
  rw [remainders, leftover, dif_neg whole, dif_neg whole]
  exact ⟨rfl, rfl⟩

/-- A buffer that is cut is counted. -/
theorem cuts_cons {data : Bytes} (splits : Splits cfg data) (others : List Bytes) :
    cuts cfg (data :: others) = cuts cfg others + 1 :=
  List.countP_cons_of_pos (decide_eq_true splits)

/-- A buffer that is not cut is not counted. -/
theorem cuts_single {data : Bytes} (whole : ¬Splits cfg data) : cuts cfg [data] = 0 :=
  List.countP_cons_of_neg (by simpa using whole)

/-- The partition of a block where the anchors are right. -/
theorem splitLoop_spec (chunk : DataChunk) (first : Nat)
    (nonempty : chunk.data ≠ []) (number : chunk.sequence.l1num = first % 2 ^ 32)
    (sound : ∀ data ∈ remainders cfg chunk.data, Sound cfg data) :
    ∃ sent temp, splitLoop cfg chunk ((first + 1) % 2 ^ 32) =
        some (sent, temp, (first + sent.length + 1) % 2 ^ 32) ∧
      Cut first chunk.data (sent ++ [temp]) ∧ temp.data = leftover cfg chunk.data ∧
      sent.length = cuts cfg (remainders cfg chunk.data) := by
  induction size : chunk.data.length using Nat.strong_induction_on generalizing chunk first with
  | _ size ih =>
    by_cases splits : Splits cfg chunk.data
    · obtain ⟨parts, last⟩ := remainders_of_splits splits
      obtain ⟨more, shorter⟩ := splits.length_rest
      have positive := splits.2.1
      have inside := splits.2.2
      rw [parts, List.forall_mem_cons] at sound
      have behind : rest cfg chunk.data ≠ [] := List.length_pos_iff.mp more
      have front : chunk.data.take (anchor cfg chunk.data).toNat ≠ [] := by
        intro gone
        have none := congrArg List.length gone
        rw [List.length_take, List.length_nil] at none
        omega
      obtain ⟨sent, temp, ran, rest', same, count⟩ := ih (rest cfg chunk.data).length
        (size ▸ shorter)
        (coarseChunk ((first + 1) % 2 ^ 32) (rest cfg chunk.data)) (first + 1) behind rfl
        sound.2 rfl
      refine ⟨{ chunk with data := chunk.data.take (anchor cfg chunk.data).toNat } :: sent, temp,
        ?_, ?_, same.trans last.symm, ?_⟩
      · rw [splitLoop_cut sound.1 splits]
        rw [show ((first + 1) % 2 ^ 32 + 1) % 2 ^ 32 = (first + 1 + 1) % 2 ^ 32 by omega, ran,
          Option.map_some, List.length_cons]
        rw [show first + 1 + sent.length + 1 = first + (sent.length + 1) + 1 by omega]
      · have one : Cut first (chunk.data.take (anchor cfg chunk.data).toNat)
            [{ chunk with data := chunk.data.take (anchor cfg chunk.data).toNat }] :=
          .single (show ({ chunk with
            data := chunk.data.take (anchor cfg chunk.data).toNat } : DataChunk).data ≠ []
            from front) number
        have all := one.append rest'
        rwa [show (coarseChunk _ (rest cfg chunk.data)).data = rest cfg chunk.data from rfl,
          rest, List.take_append_drop] at all
      · rw [parts, cuts_cons splits, List.length_cons, count]
        rfl
    · obtain ⟨parts, last⟩ := remainders_of_not splits
      rw [parts, List.forall_mem_singleton] at sound
      refine ⟨[], chunk, splitLoop_keep sound splits, Cut.single nonempty number, last.symm, ?_⟩
      rw [parts, cuts_single splits]
      rfl

/-- The partition of a block fails where an anchor is not right. -/
theorem splitLoop_fails (chunk : DataChunk) (anchorcount : Nat)
    (unsound : ¬∀ data ∈ remainders cfg chunk.data, Sound cfg data) :
    splitLoop cfg chunk anchorcount = none := by
  induction size : chunk.data.length using Nat.strong_induction_on
    generalizing chunk anchorcount with
  | _ size ih =>
    by_cases sound : Sound cfg chunk.data
    · by_cases splits : Splits cfg chunk.data
      · rw [(remainders_of_splits splits).1, List.forall_mem_cons, and_iff_right sound] at unsound
        rw [splitLoop_cut sound splits, ih _ (size ▸ splits.length_rest.2)
          (coarseChunk anchorcount (rest cfg chunk.data)) _ unsound rfl, Option.map_none]
      · rw [(remainders_of_not splits).1, List.forall_mem_singleton] at unsound
        exact absurd sound unsound
    · exact splitLoop_unsound sound

/-- What is left over from the last block: nothing, or a chunk with the last number. -/
inductive Left (first : Nat) : Option DataChunk → Nat → Prop where
  /-- Nothing is left over. -/
  | none : Left first none (first % 2 ^ 32)
  /-- The bytes of a chunk are left over. -/
  | some {temp : DataChunk} (nonempty : temp.data ≠ [])
      (number : temp.sequence.l1num = first % 2 ^ 32) :
      Left first (some temp) ((first + 1) % 2 ^ 32)

/-- The body of the outer loop. -/
theorem run_eq {first : Nat} {temp : Option DataChunk} (left : Left first temp anchorcount)
    (source : Source) :
    run cfg sizes temp anchorcount source =
      let bytes := temp.elim [] DataChunk.data
      let block := source.readBlock cfg.maxbuf sizes
      if bytes.length + block.1.length = 0 then some []
      else if block.1.length = 0 then some [coarseChunk (first % 2 ^ 32) (bytes ++ block.1)]
      else (splitLoop cfg (coarseChunk (first % 2 ^ 32) (bytes ++ block.1))
        ((first + 1) % 2 ^ 32)).bind fun (sent, temp, anchorcount) =>
          (run cfg sizes (some temp) anchorcount block.2).bind fun rest => some (sent ++ rest) := by
  cases left with
  | none =>
    rw [run]
    simp only [Option.elim_none, List.length_nil, List.nil_append, Nat.mod_add_mod]
    rfl
  | some nonempty number =>
    rename_i temp
    have positive : 0 < temp.data.length := List.length_pos_iff.mpr nonempty
    rw [run]
    simp only [Option.elim_some, if_pos positive, number]
    rfl

/-- The buffers of an input that has been read. -/
theorem buffers_nil (before : Bytes) : buffers cfg before [] = [] := by
  rw [buffers, if_pos rfl]

/-- The buffers of a block, and those of what is left. -/
theorem buffers_of_ne_nil {unread : Bytes} (before : Bytes) (some : unread ≠ []) :
    buffers cfg before unread = remainders cfg (before ++ unread.take cfg.maxbuf) ++
      buffers cfg (leftover cfg (before ++ unread.take cfg.maxbuf)) (unread.drop cfg.maxbuf) := by
  rw [buffers, if_neg some]

/-- The outer loop at the end of the input. -/
theorem run_end {first : Nat} {temp : Option DataChunk} (left : Left first temp anchorcount)
    {source : Source} (ended : source.remaining = []) :
    run cfg sizes temp anchorcount source = some
      (if temp.elim [] DataChunk.data = [] then []
        else [coarseChunk (first % 2 ^ 32) (temp.elim [] DataChunk.data)]) := by
  have spec := source.readBlock_spec cfg.maxbuf sizes
  rw [run_eq left]
  dsimp only
  rw [spec.1, ended, List.take_nil, List.append_nil, List.length_nil, Nat.add_zero, if_pos rfl]
  simp only [List.length_eq_zero_iff]
  split
  · rfl
  · rfl

/-- The outer loop where there is a block to be read. -/
theorem run_block {first : Nat} {temp : Option DataChunk} (left : Left first temp anchorcount)
    {source : Source} (more : source.remaining ≠ []) :
    run cfg sizes temp anchorcount source =
      (splitLoop cfg (coarseChunk (first % 2 ^ 32)
        (temp.elim [] DataChunk.data ++ source.remaining.take cfg.maxbuf))
        ((first + 1) % 2 ^ 32)).bind fun (sent, temp, anchorcount) =>
          (run cfg sizes (some temp) anchorcount (source.readBlock cfg.maxbuf sizes).2).bind
            fun rest => some (sent ++ rest) := by
  have spec := source.readBlock_spec cfg.maxbuf sizes
  have positive := cfg.maxbuf_pos
  have some := List.length_pos_iff.mpr more
  have busy : (source.remaining.take cfg.maxbuf).length ≠ 0 := by
    rw [List.length_take]
    omega
  rw [run_eq left]
  dsimp only
  rw [spec.1, if_neg (by omega), if_neg busy]

/-- The number of chunks of what is left over and what has not been read. -/
def count (cfg : FragmentConfig) (before unread : Bytes) : Nat :=
  if before ++ unread = [] then 0 else cuts cfg (buffers cfg before unread) + 1

/-- The outer loop cuts what is left over and what has not been read into chunks where the anchors
are right. -/
theorem run_spec {first : Nat} {temp : Option DataChunk}
    (left : Left first temp anchorcount) (source : Source)
    (sound : ∀ data ∈ buffers cfg (temp.elim [] DataChunk.data) source.remaining,
      Sound cfg data) :
    ∃ chunks, run cfg sizes temp anchorcount source = some chunks ∧
      Cut first (temp.elim [] DataChunk.data ++ source.remaining) chunks ∧
      chunks.length = count cfg (temp.elim [] DataChunk.data) source.remaining := by
  induction size : source.remaining.length using Nat.strong_induction_on
    generalizing first temp anchorcount source with
  | _ size ih =>
    have spec := source.readBlock_spec cfg.maxbuf sizes
    have positive := cfg.maxbuf_pos
    generalize bytes : temp.elim [] DataChunk.data = before at sound ⊢
    by_cases ended : source.remaining = []
    · refine ⟨_, run_end left ended, ?_⟩
      rw [ended, List.append_nil, bytes, count, List.append_nil, buffers_nil]
      split
      · rename_i none
        rw [none]
        exact ⟨⟨rfl, fun _ member => absurd member List.not_mem_nil, rfl⟩, rfl⟩
      · rename_i some
        have one : Cut first (coarseChunk (first % 2 ^ 32) before).data [_] := Cut.single some rfl
        exact ⟨one, rfl⟩
    · have some := List.length_pos_iff.mpr ended
      rw [buffers_of_ne_nil before ended, List.forall_mem_append] at sound
      have busy : (source.remaining.take cfg.maxbuf).length ≠ 0 := by
        rw [List.length_take]
        omega
      obtain ⟨sent, next, cut, parts, last, number⟩ := splitLoop_spec
        (coarseChunk (first % 2 ^ 32) (before ++ source.remaining.take cfg.maxbuf)) first
        (coarseChunk_ne_nil busy) rfl sound.1
      obtain ⟨earlier, whole, kept, numbered⟩ := parts.front
      have behind : (Option.some next).elim [] DataChunk.data =
          leftover cfg (before ++ source.remaining.take cfg.maxbuf) := last
      obtain ⟨rest, ran, tail, more⟩ := ih (source.readBlock cfg.maxbuf sizes).2.remaining.length
        (by rw [spec.2, List.length_drop]; omega) (.some kept numbered) _
        (by rw [behind, spec.2]; exact sound.2) rfl
      refine ⟨sent ++ rest, ?_, ?_, ?_⟩
      · rw [run_block left ended, bytes, cut, Option.bind_some]
        dsimp only
        rw [ran, Option.bind_some]
      · have all := earlier.append tail
        rw [spec.2] at all
        have same : sent.flatMap DataChunk.data ++
            ((Option.some next).elim [] DataChunk.data ++ source.remaining.drop cfg.maxbuf) =
            before ++ source.remaining := by
          rw [← List.append_assoc, Option.elim_some, whole, coarseChunk, List.append_assoc,
            List.take_append_drop]
        rwa [same] at all
      · have here : before ++ source.remaining ≠ [] := by simp [ended]
        have there : (Option.some next).elim [] DataChunk.data ++
            source.remaining.drop cfg.maxbuf ≠ [] := by simp [kept]
        have few : rest.length = cuts cfg (buffers cfg
            (leftover cfg (before ++ source.remaining.take cfg.maxbuf))
            (source.remaining.drop cfg.maxbuf)) + 1 := by
          rw [more, spec.2, count, if_neg there, ← behind]
        have sentOf : sent.length =
            cuts cfg (remainders cfg (before ++ source.remaining.take cfg.maxbuf)) := number
        rw [count, if_neg here, buffers_of_ne_nil before ended, List.length_append, few, sentOf]
        unfold cuts
        rw [List.countP_append]
        omega

/-- The outer loop fails where an anchor is not right. -/
theorem run_fails {first : Nat} {temp : Option DataChunk}
    (left : Left first temp anchorcount) (source : Source)
    (unsound : ¬∀ data ∈ buffers cfg (temp.elim [] DataChunk.data) source.remaining,
      Sound cfg data) :
    run cfg sizes temp anchorcount source = none := by
  induction size : source.remaining.length using Nat.strong_induction_on
    generalizing first temp anchorcount source with
  | _ size ih =>
    have spec := source.readBlock_spec cfg.maxbuf sizes
    have positive := cfg.maxbuf_pos
    generalize bytes : temp.elim [] DataChunk.data = before at unsound
    by_cases ended : source.remaining = []
    · rw [ended, buffers_nil] at unsound
      exact absurd (fun _ member => absurd member List.not_mem_nil) unsound
    · have some := List.length_pos_iff.mpr ended
      have busy : (source.remaining.take cfg.maxbuf).length ≠ 0 := by
        rw [List.length_take]
        omega
      rw [run_block left ended, bytes]
      by_cases sound : ∀ data ∈ remainders cfg (before ++ source.remaining.take cfg.maxbuf),
          Sound cfg data
      · obtain ⟨sent, next, cut, parts, last, -⟩ := splitLoop_spec
          (coarseChunk (first % 2 ^ 32) (before ++ source.remaining.take cfg.maxbuf)) first
          (coarseChunk_ne_nil busy) rfl sound
        obtain ⟨-, -, kept, numbered⟩ := parts.front
        rw [buffers_of_ne_nil before ended, List.forall_mem_append, and_iff_right sound] at unsound
        have behind : (Option.some next).elim [] DataChunk.data =
            leftover cfg (before ++ source.remaining.take cfg.maxbuf) := last
        have fails := ih (source.readBlock cfg.maxbuf sizes).2.remaining.length
          (by rw [spec.2, List.length_drop]; omega) (.some kept numbered) _
          (by rw [behind, spec.2]; exact unsound) rfl
        rw [cut, Option.bind_some]
        dsimp only
        rw [fails, Option.bind_none]
      · rw [splitLoop_fails _ _ sound, Option.bind_none]

/-- `Fragment::svc`: the buffers that it sends. -/
def svc (cfg : FragmentConfig) (sizes : Nat → Nat) (pipe : PipeConfig) (source : Source) :
    Option (List Ringbuffer) :=
  (chunks cfg sizes source).map
    (sendBufs pipe (.new pipe.anchorDataPerInsert pipe.anchorDataPerInsert_pos))

/-- The buffers hold the chunks in the order in which they are inserted. -/
theorem sendBufs_data (pipe : PipeConfig) (sendBuf : SendBuf) (coarse : List DataChunk) :
    (sendBufs pipe sendBuf coarse).flatMap Ringbuffer.data = sendBuf.data ++ coarse := by
  induction sendBuf, coarse using sendBufs.induct pipe with
  | case1 sendBuf => simp [sendBufs]
  | case2 sendBuf chunk => simp [sendBufs, SendBuf.insert]
  | case3 sendBuf chunk next rest full ih =>
    rw [sendBufs, dif_pos full, List.flatMap_cons, ih]
    simp [SendBuf.insert, SendBuf.new, Ringbuffer.init]
  | case4 sendBuf chunk next rest more ih =>
    rw [sendBufs, dif_neg more, ih]
    simp [SendBuf.insert, SendBuf.ofInsert]

/-- The coarse chunks of an input where the anchors are right, for every pattern of reads and in
both modes. -/
theorem chunks_cut (sizes : Nat → Nat) {input : Bytes} {source : Source}
    (begins : source = .preloaded input 0 ∨ source = .stream input 0)
    (sound : ∀ data ∈ buffers cfg [] input, Sound cfg data) :
    ∃ chunks, Fragment.chunks cfg sizes source = some chunks ∧ Cut 0 input chunks ∧
      chunks.length = count cfg [] input := by
  have all : source.remaining = input := by
    rcases begins with rfl | rfl
    · rfl
    · rfl
  obtain ⟨chunks, ran, cut, number⟩ := @run_spec cfg sizes _ _ _
    (.none : Left 0 none (0 % 2 ^ 32)) source (all.symm ▸ sound)
  rw [all] at cut number
  exact ⟨chunks, ran, cut, number⟩

/-- There are no chunks where an anchor is not right. -/
theorem chunks_fails (sizes : Nat → Nat) {input : Bytes} {source : Source}
    (begins : source = .preloaded input 0 ∨ source = .stream input 0)
    (unsound : ¬∀ data ∈ buffers cfg [] input, Sound cfg data) :
    Fragment.chunks cfg sizes source = none := by
  have all : source.remaining = input := by
    rcases begins with rfl | rfl
    · rfl
    · rfl
  exact run_fails (.none : Left 0 none (0 % 2 ^ 32)) source (all.symm ▸ unsound)

/-- In a buffer that is longer than `ANCHOR_JUMP` there is an anchor within some bytes. -/
def Near (cfg : FragmentConfig) (bound : Nat) (data : Bytes) : Prop :=
  cfg.anchorJump < data.length → 0 < anchor cfg data ∧ anchor cfg data ≤ bound

/-- With near anchors the partition of a block leaves only short chunks. -/
theorem splitLoop_near {bound : Nat} (jump : cfg.anchorJump ≤ bound) (chunk : DataChunk)
    (anchorcount : Nat) {sent : List DataChunk} {temp : DataChunk} {count : Nat}
    (right : ∀ data ∈ remainders cfg chunk.data, Sound cfg data ∧ Near cfg bound data)
    (ran : splitLoop cfg chunk anchorcount = some (sent, temp, count)) :
    ∀ other ∈ sent ++ [temp], other.data.length ≤ bound := by
  induction size : chunk.data.length using Nat.strong_induction_on
    generalizing chunk anchorcount sent with
  | _ length ih =>
    by_cases splits : Splits cfg chunk.data
    · rw [(remainders_of_splits splits).1, List.forall_mem_cons] at right
      obtain ⟨⟨sound, near⟩, right⟩ := right
      have close := (near splits.1).2
      rw [splitLoop_cut sound splits] at ran
      obtain ⟨⟨sent', temp', count'⟩, later, same⟩ := Option.map_eq_some_iff.mp ran
      obtain ⟨rfl, rest⟩ := Prod.mk.inj same
      obtain ⟨rfl, rfl⟩ := Prod.mk.inj rest
      intro other member
      rcases List.mem_cons.mp member with rfl | inside
      · show (chunk.data.take _).length ≤ _
        rw [List.length_take]
        omega
      · exact ih _ (size ▸ splits.length_rest.2) (coarseChunk anchorcount _) _ right later rfl
          other inside
    · rw [(remainders_of_not splits).1, List.forall_mem_singleton] at right
      rw [splitLoop_keep right.1 splits] at ran
      obtain ⟨rfl, same⟩ := Prod.mk.inj (Option.some.inj ran)
      obtain ⟨rfl, rfl⟩ := Prod.mk.inj same
      intro other member
      obtain rfl := List.mem_singleton.mp member
      by_cases long : cfg.anchorJump < other.data.length
      · have near := right.2 long
        unfold Splits at splits
        omega
      · omega

/-- With near anchors all chunks are short. -/
theorem run_near {bound first : Nat} {temp : Option DataChunk} (jump : cfg.anchorJump ≤ bound)
    (left : Left first temp anchorcount)
    (short : (temp.elim [] DataChunk.data).length ≤ bound) (source : Source)
    (right : ∀ data ∈ buffers cfg (temp.elim [] DataChunk.data) source.remaining,
      Sound cfg data ∧ Near cfg bound data) {chunks : List DataChunk}
    (ran : run cfg sizes temp anchorcount source = some chunks) :
    ∀ chunk ∈ chunks, chunk.data.length ≤ bound := by
  induction size : source.remaining.length using Nat.strong_induction_on
    generalizing first temp anchorcount source chunks with
  | _ length ih =>
    have spec := source.readBlock_spec cfg.maxbuf sizes
    have positive := cfg.maxbuf_pos
    by_cases ended : source.remaining = []
    · rw [run_end left ended] at ran
      obtain rfl := Option.some.inj ran
      intro chunk member
      split at member
      · exact absurd member List.not_mem_nil
      · obtain rfl := List.mem_singleton.mp member
        exact short
    · have some := List.length_pos_iff.mpr ended
      have busy : (source.remaining.take cfg.maxbuf).length ≠ 0 := by
        rw [List.length_take]
        omega
      rw [buffers_of_ne_nil _ ended, List.forall_mem_append] at right
      rw [run_block left ended] at ran
      obtain ⟨sent, next, cut, parts, last, -⟩ := splitLoop_spec
        (coarseChunk (first % 2 ^ 32) (temp.elim [] DataChunk.data ++
          source.remaining.take cfg.maxbuf)) first
        (coarseChunk_ne_nil busy) rfl fun data member => (right.1 data member).1
      obtain ⟨-, -, kept, number⟩ := parts.front
      have shorts := splitLoop_near jump
        (coarseChunk (first % 2 ^ 32) (temp.elim [] DataChunk.data ++
          source.remaining.take cfg.maxbuf)) _ right.1 cut
      have behind : (Option.some next).elim [] DataChunk.data = leftover cfg
          (temp.elim [] DataChunk.data ++ source.remaining.take cfg.maxbuf) := last
      rw [cut, Option.bind_some] at ran
      obtain ⟨later, rest, same⟩ := Option.bind_eq_some_iff.mp ran
      obtain rfl := Option.some.inj same
      intro chunk member
      rcases List.mem_append.mp member with here | here
      · exact shorts chunk (List.mem_append_left _ here)
      · exact ih (source.readBlock cfg.maxbuf sizes).2.remaining.length
          (by rw [spec.2, List.length_drop]; omega) (.some kept number)
          (shorts next (by simp)) _ (by rw [behind, spec.2]; exact right.2) rest rfl chunk here

/-- Short chunks with many bytes are many. -/
theorem length_le_of_near {bound : Nat} {chunks : List DataChunk}
    (short : ∀ chunk ∈ chunks, chunk.data.length ≤ bound) :
    (chunks.flatMap DataChunk.data).length ≤ chunks.length * bound := by
  induction chunks with
  | nil => exact Nat.zero_le _
  | cons chunk chunks ih =>
    have here := short chunk List.mem_cons_self
    have rest := ih fun other member => short other (List.mem_cons_of_mem _ member)
    rw [List.flatMap_cons, List.length_append, List.length_cons, Nat.add_one_mul]
    omega

/-- In a buffer that is longer than `ANCHOR_JUMP` there is an anchor, or the end of the buffer,
within less than 2^31 bytes. -/
def Within (cfg : FragmentConfig) (data : Bytes) : Prop := cfg.anchorJump < data.length →
  cfg.rabinseg (data.drop cfg.anchorJump) + cfg.anchorJump < 2 ^ 31

/-- Such an anchor is right, and near. -/
theorem Within.sound (anchored : Anchored cfg.rabinseg) {data : Bytes} (within : Within cfg data) :
    Sound cfg data ∧ Near cfg (2 ^ 31 - 1) data := by
  have right : cfg.anchorJump < data.length →
      toInt (cfg.rabinseg (data.drop cfg.anchorJump)) =
          cfg.rabinseg (data.drop cfg.anchorJump) ∧
        0 < cfg.rabinseg (data.drop cfg.anchorJump) := by
    intro jump
    have small := within jump
    have some : 0 < (data.drop cfg.anchorJump).length := by
      rw [List.length_drop]
      omega
    exact ⟨toInt_of_lt (by omega), (anchored _ some).1⟩
  constructor
  · intro jump
    have small := within jump
    obtain ⟨same, positive⟩ := right jump
    rw [anchor, same]
    omega
  · intro jump
    have small := within jump
    obtain ⟨same, positive⟩ := right jump
    rw [anchor, same]
    omega

/-- There are not more chunks than bytes. -/
theorem Cut.length_le {first : Nat} {data : Bytes} {chunks : List DataChunk}
    (cut : Cut first data chunks) : chunks.length ≤ data.length := by
  rw [← cut.whole]
  have nonempty := cut.nonempty
  clear cut
  induction chunks with
  | nil => exact le_rfl
  | cons chunk chunks ih =>
    have here := List.length_pos_iff.mpr (nonempty chunk List.mem_cons_self)
    have rest := ih fun other member => nonempty other (List.mem_cons_of_mem _ member)
    rw [List.flatMap_cons, List.length_append, List.length_cons]
    omega

/-- The stage ends, and its coarse chunks concatenate to the input, none is empty, they are numbered
from 0, and the buffers hold them in this order. -/
def Right (cfg : FragmentConfig) (sizes : Nat → Nat) (pipe : PipeConfig) (input : Bytes)
    (source : Source) : Prop :=
  ∃ chunks bufs, Fragment.chunks cfg sizes source = some chunks ∧
    chunks.flatMap DataChunk.data = input ∧
    (∀ chunk ∈ chunks, chunk.data ≠ []) ∧
    chunks.map (fun chunk => chunk.sequence.l1num) = List.range chunks.length ∧
    Fragment.svc cfg sizes pipe source = some bufs ∧
    bufs.flatMap Ringbuffer.data = chunks

end Fragment

/-- For every pattern of reads and in both modes, the stage is right exactly when the anchors are
right in all buffers in which one is looked for, and less than 2^32 of these buffers are cut. -/
theorem fragment_correct_iff (cfg : FragmentConfig) (sizes : Nat → Nat) (pipe : PipeConfig)
    (input : Bytes) (source : Source)
    (begins : source = .preloaded input 0 ∨ source = .stream input 0) :
    Fragment.Right cfg sizes pipe input source ↔
      (∀ data ∈ Fragment.buffers cfg [] input, Fragment.Sound cfg data) ∧
        Fragment.cuts cfg (Fragment.buffers cfg [] input) < 2 ^ 32 := by
  by_cases sound : ∀ data ∈ Fragment.buffers cfg [] input, Fragment.Sound cfg data
  · rw [and_iff_right sound]
    obtain ⟨chunks, ran, cut, number⟩ := Fragment.chunks_cut sizes begins sound
    have few : chunks.length ≤ 2 ^ 32 ↔
        Fragment.cuts cfg (Fragment.buffers cfg [] input) < 2 ^ 32 := by
      rw [number, Fragment.count, List.nil_append]
      split
      · rename_i none
        rw [none, Fragment.buffers_nil]
        exact iff_of_true (by norm_num) (by norm_num [Fragment.cuts])
      · exact Nat.succ_le_iff
    rw [← few]
    constructor
    · rintro ⟨chunks', bufs, ran', -, -, numbered, -⟩
      obtain rfl := Option.some.inj (ran.symm.trans ran')
      by_contra above
      -- the number of the chunk behind the first `2 ^ 32` ones is 0 again
      have same := cut.numbered.symm.trans numbered
      rw [← List.range_eq_range'] at same
      have entry : ((List.range chunks.length).map (· % 2 ^ 32))[2 ^ 32]? =
          (List.range chunks.length)[2 ^ 32]? := by rw [same]
      rw [List.getElem?_map, List.getElem?_range (not_le.mp above), Option.map_some] at entry
      exact absurd (Option.some.inj entry) (by norm_num)
    · intro small
      refine ⟨chunks, Fragment.sendBufs pipe
        (.new pipe.anchorDataPerInsert pipe.anchorDataPerInsert_pos) chunks, ran, cut.whole,
        cut.nonempty, ?_, ?_, Fragment.sendBufs_data pipe _ chunks⟩
      · rw [cut.numbered, ← List.range_eq_range']
        refine (List.map_congr_left fun i member => ?_).trans (List.map_id _)
        exact Nat.mod_eq_of_lt (lt_of_lt_of_le (List.mem_range.mp member) small)
      · rw [Fragment.svc, ran]
        rfl
  · refine iff_of_false ?_ fun both => sound both.1
    rintro ⟨chunks, bufs, ran, -⟩
    rw [Fragment.chunks_fails sizes begins sound] at ran
    exact nomatch ran

section Sample

/-- The constants of the program, with an anchor behind every byte. -/
def everywhere : FragmentConfig :=
  ⟨128 * 1024 * 1024, 2 * 1024 * 1024, fun _ => 1, by norm_num, by norm_num⟩

/-- An anchor behind every byte is behind the beginning. -/
theorem anchored_everywhere : Fragment.Anchored everywhere.rabinseg :=
  fun _ nonempty => ⟨Nat.one_pos, nonempty⟩

/-- Buffers of one chunk. -/
def oneByOne : PipeConfig :=
  ⟨1, 1, 1, fun _ => 1, Nat.one_pos, Nat.one_pos, Nat.one_pos, fun _ _ => Nat.one_pos⟩

namespace Fragment

/-- A buffer is cut behind the byte behind `ANCHOR_JUMP`. -/
theorem anchor_everywhere (data : Bytes) : anchor everywhere data = everywhere.anchorJump + 1 := by
  have one : toInt (everywhere.rabinseg (data.drop everywhere.anchorJump)) = 1 := toInt_of_lt (by
    show 1 < _
    norm_num)
  rw [anchor, one, add_comm]

/-- Such an anchor is right. -/
theorem sound_everywhere (data : Bytes) : Sound everywhere data := by
  intro _
  have one : toInt (everywhere.rabinseg (data.drop everywhere.anchorJump)) = 1 := toInt_of_lt (by
    show 1 < _
    norm_num)
  have jump : everywhere.anchorJump = 2 * 1024 * 1024 := rfl
  rw [anchor_everywhere, one, jump]
  norm_num

/-- It is near. -/
theorem near_everywhere (data : Bytes) : Near everywhere (everywhere.anchorJump + 1) data := by
  intro _
  rw [anchor_everywhere]
  omega

end Fragment

/-- A long input is cut into many chunks. -/
theorem Fragment.chunks_many {sizes : Nat → Nat} (n : Nat) (input : Bytes)
    (large : n * (everywhere.anchorJump + 1) < input.length) :
    ∃ chunks, Fragment.chunks everywhere sizes (.preloaded input 0) = some chunks ∧
      n < chunks.length ∧ chunks.map (fun chunk => chunk.sequence.l1num) =
        (List.range chunks.length).map (· % 2 ^ 32) := by
  obtain ⟨chunks, ran, cut, -⟩ := @Fragment.chunks_cut everywhere sizes _ _
    (.inl rfl : Source.preloaded input 0 = _ ∨ _) fun data _ => Fragment.sound_everywhere data
  have short := Fragment.run_near (Nat.le_succ _) (.none : Fragment.Left 0 none 0)
    (Nat.zero_le _) _ (fun data _ => ⟨Fragment.sound_everywhere data,
      Fragment.near_everywhere data⟩) ran
  have many := Fragment.length_le_of_near short
  rw [cut.whole] at many
  refine ⟨chunks, ran, Nat.lt_of_mul_lt_mul_right (Nat.lt_of_lt_of_le large many), ?_⟩
  rw [cut.numbered, ← List.range_eq_range']

/-- Less buffers are cut than there are bytes. -/
theorem Fragment.cuts_everywhere (input : Bytes) :
    Fragment.cuts everywhere (Fragment.buffers everywhere [] input) ≤ input.length := by
  obtain ⟨chunks, -, cut, number⟩ := @Fragment.chunks_cut everywhere (fun _ => 0) _ _
    (.inl rfl : Source.preloaded input 0 = _ ∨ _) fun data _ => Fragment.sound_everywhere data
  have few := cut.length_le
  rw [number, Fragment.count, List.nil_append] at few
  split at few
  · rename_i none
    rw [none, Fragment.buffers_nil]
    exact Nat.zero_le _
  · omega

/-- An input that is cut twice. -/
theorem fragment_correct_sample :
    ∃ input chunks bufs,
      Fragment.chunks everywhere (fun _ => 0) (.preloaded input 0) = some chunks ∧
      2 < chunks.length ∧
      chunks.map (fun chunk => chunk.sequence.l1num) = List.range chunks.length ∧
      chunks.flatMap DataChunk.data = input ∧
      Fragment.svc everywhere (fun _ => 0) oneByOne (.preloaded input 0) = some bufs ∧
      bufs.flatMap Ringbuffer.data = chunks := by
  let input : Bytes := List.replicate (2 * (everywhere.anchorJump + 1) + 1) 0
  have size : input.length = 2 * (everywhere.anchorJump + 1) + 1 := List.length_replicate
  have jump : everywhere.anchorJump = 2 * 1024 * 1024 := rfl
  have few := Fragment.cuts_everywhere input
  obtain ⟨chunks, bufs, ran, whole, -, numbered, sent, held⟩ :=
    (fragment_correct_iff everywhere (fun _ => 0) oneByOne input (.preloaded input 0)
      (.inl rfl)).mpr ⟨fun data _ => Fragment.sound_everywhere data, by omega⟩
  obtain ⟨chunks', ran', many, -⟩ := @Fragment.chunks_many (fun _ => 0) 2 input (by omega)
  obtain rfl := Option.some.inj (ran.symm.trans ran')
  exact ⟨input, chunks, bufs, ran, many, numbered, whole, sent, held⟩

/-- The constants of the program, without an anchor. -/
def nowhere : FragmentConfig :=
  ⟨128 * 1024 * 1024, 2 * 1024 * 1024, List.length, by norm_num, by norm_num⟩

/-- The end of the data is not behind the end. -/
theorem anchored_nowhere : Fragment.Anchored nowhere.rabinseg :=
  fun _ nonempty => ⟨nonempty, le_rfl⟩

namespace Fragment

/-- A buffer of at most 2^31 bytes is not cut. -/
theorem anchor_nowhere {data : Bytes} (jump : nowhere.anchorJump < data.length)
    (bound : data.length ≤ 2 ^ 31) : anchor nowhere data = data.length := by
  have size : nowhere.rabinseg (data.drop nowhere.anchorJump) =
      data.length - nowhere.anchorJump := List.length_drop
  have positive : nowhere.anchorJump = 2 * 1024 * 1024 := rfl
  rw [anchor, toInt_of_lt (by omega), size]
  omega

/-- What is left over grows by a block each time, until it has 2^31 bytes. -/
theorem buffers_nowhere (more : Nat) : ∀ before unread : Bytes,
    before.length + (more + 1) * nowhere.maxbuf = 2 ^ 31 →
    (more + 1) * nowhere.maxbuf ≤ unread.length →
    ∃ data ∈ buffers nowhere before unread, data.length = 2 ^ 31 := by
  have maxbuf : nowhere.maxbuf = 128 * 1024 * 1024 := rfl
  induction more with
  | zero =>
    intro before unread size enough
    rw [maxbuf] at size enough
    have some : unread ≠ [] := List.length_pos_iff.mp (by omega)
    refine ⟨before ++ unread.take nowhere.maxbuf, ?_, ?_⟩
    · rw [buffers_of_ne_nil before some, List.mem_append]
      left
      rw [remainders]
      split
      · exact List.mem_cons_self
      · exact List.mem_singleton.mpr rfl
    · rw [List.length_append, List.length_take, maxbuf]
      omega
  | succ more ih =>
    intro before unread size enough
    rw [maxbuf] at size enough
    have some : unread ≠ [] := List.length_pos_iff.mp (by omega)
    have length : (before ++ unread.take nowhere.maxbuf).length =
        before.length + nowhere.maxbuf := by
      rw [List.length_append, List.length_take, maxbuf]
      omega
    have whole : ¬Splits nowhere (before ++ unread.take nowhere.maxbuf) := by
      rintro ⟨jump, -, inside⟩
      rw [anchor_nowhere jump (by omega)] at inside
      exact absurd inside (lt_irrefl _)
    have left : (unread.drop nowhere.maxbuf).length + nowhere.maxbuf = unread.length := by
      rw [List.length_drop, maxbuf]
      omega
    have grown : (before ++ unread.take nowhere.maxbuf).length + (more + 1) * nowhere.maxbuf =
        2 ^ 31 := by
      rw [length, ← size, maxbuf]
      ring
    have unread' : (more + 1) * nowhere.maxbuf ≤ (unread.drop nowhere.maxbuf).length := by
      rw [← maxbuf, Nat.add_one_mul] at enough
      omega
    obtain ⟨data, member, long⟩ := ih _ _ grown unread'
    refine ⟨data, ?_, long⟩
    rw [buffers_of_ne_nil before some, (remainders_of_not whole).2]
    exact List.mem_append_right _ member

end Fragment

/-- An input of 4 GiB without an anchor. -/
theorem fragment_fails : ∃ input : Bytes, input.length = 2 ^ 32 ∧
    Fragment.Anchored nowhere.rabinseg ∧
    Fragment.chunks nowhere (fun _ => 0) (.preloaded input 0) = none := by
  have maxbuf : nowhere.maxbuf = 128 * 1024 * 1024 := rfl
  have jump : nowhere.anchorJump = 2 * 1024 * 1024 := rfl
  refine ⟨List.replicate (2 ^ 32) 0, List.length_replicate, anchored_nowhere,
    Fragment.chunks_fails _ (.inl rfl) fun sound => ?_⟩
  obtain ⟨data, member, long⟩ := Fragment.buffers_nowhere 15 [] (List.replicate (2 ^ 32) 0)
    (by rw [List.length_nil, maxbuf]; norm_num) (by rw [List.length_replicate, maxbuf]; norm_num)
  -- the sum of the offset and `ANCHOR_JUMP` overflows
  have small := (sound data member (by omega)).2.2
  rw [Fragment.anchor_nowhere (by omega) long.le, long] at small
  norm_num at small

end Sample

end P3arsec.Dedup
