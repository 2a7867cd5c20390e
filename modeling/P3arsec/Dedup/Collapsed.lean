import P3arsec.Dedup.RingBuffer
import P3arsec.Dedup.Serial

/-!
# The collapsed pipeline

In the ordered farm one worker refines, deduplicates and compresses the chunks of a task. The stages
hand them on in ring buffers for one chunk each, and the worker returns them in one ring buffer that
is as long as the number of buffers of the last stage. A marked task is the last one of a worker:
each stage sends one more buffer with the mark, and has no send buffer any more.

A worker that has its send buffers, all of them empty, has them again behind a task that is not
marked (`svc_eq`), so that nothing is held back. The returned buffer has room for all chunks, but
its head is an `int`: it holds them when there are at most `INT_MAX` of them (`svc_returned_iff`).
The farm gives tasks to its workers in any order of steps, and the collector takes the results in
the order of the tasks.
-/

namespace P3arsec.Dedup.Collapsed

open P3arsec.Lib

/-- A `chunk_t`, with the fields that the stages of a worker use. -/
structure StageChunk extends DataChunk where
  /-- `header.state`. -/
  state : ChunkState
  /-- `header.isDuplicate`, none before it is set. -/
  isDuplicate : Option Bool
  deriving DecidableEq, Repr

/-- The parameters of the ordered farm. -/
structure Config extends PipeConfig where
  /-- `GRAIN` is 1, or the program does not compile. -/
  chunkAnchorPerInsert_eq : chunkAnchorPerInsert = 1
  /-- `GRAIN` is 1, or the program does not compile. -/
  itemPerInsert_eq : itemPerInsert = 1
  /-- What the memory of a new ring buffer holds. -/
  garbage : Nat → Option StageChunk

/-- The buffers that a stage has sent, and the one that it is filling: none after it has been sent
with the mark. -/
structure Sending where
  /-- `dataOut`. -/
  dataOut : List (Ring StageChunk)
  /-- `send_buf`. -/
  sendBuf : Option (Ring StageChunk)

variable (cfg : Config)

/-- Inserts a chunk into the send buffer. When the buffer is full it is sent and a new one is
begun. -/
def Sending.insert (size : Nat) (state : Sending) (chunk : StageChunk) : Option Sending := do
  let sendBuf ← state.sendBuf
  let (inserted, sendBuf) ← sendBuf.insert chunk
  guard inserted
  let full ← sendBuf.isFull
  if full then return ⟨state.dataOut ++ [sendBuf], some (.init cfg.garbage size)⟩
  else return { state with sendBuf := some sendBuf }

/-- What a stage does with a received buffer, where it does something with each chunk. -/
def receive (body : Sending → StageChunk → Option Sending) (state : Sending)
    (recvBuf : Ring StageChunk) : Option Sending := do
  let isLast := recvBuf.last
  let state ← recvBuf.drain (fun _ => none) body recvBuf.size state
  if isLast then
    let sendBuf ← state.sendBuf
    return ⟨state.dataOut ++ [sendBuf.setLast], none⟩
  else return state

/-- The loop of `FragmentRefine::compute` over the pieces of a coarse chunk. -/
def refineLoop (l1num : Nat) (chunkState : ChunkState) (chcount : Nat) (data : Bytes)
    (state : Sending) : Option Sending :=
  let offset := cfg.rabinseg data
  if split : offset < data.length then do
    let state ← state.insert cfg cfg.chunkAnchorPerInsert
      ⟨⟨⟨⟨l1num, chcount⟩, false⟩, data.take offset⟩, chunkState, none⟩
    refineLoop l1num chunkState ((chcount + 1) % 2 ^ 32) (data.drop offset) state
  else state.insert cfg cfg.chunkAnchorPerInsert
    ⟨⟨⟨⟨l1num, chcount⟩, true⟩, data⟩, chunkState, none⟩
  termination_by data.length
  decreasing_by
    have positive := cfg.rabinseg_pos data split
    rw [List.length_drop]
    omega

/-- `FragmentRefine::compute`. -/
def FragmentRefine.compute (sendBuf : Option (Ring StageChunk)) (recvBuf : Ring StageChunk) :
    Option Sending :=
  receive (fun state chunk => refineLoop cfg chunk.sequence.l1num chunk.state 0 chunk.data state)
    ⟨[], sendBuf⟩ recvBuf

/-- `Deduplicate::compute`, with what `sub_Deduplicate` finds for the chunks of a task. -/
def Deduplicate.compute (isDuplicate : StageChunk → Bool) (sendBuf : Option (Ring StageChunk))
    (recvBufV : List (Ring StageChunk)) : Option Sending :=
  recvBufV.foldlM (receive fun state chunk => state.insert cfg cfg.itemPerInsert
    { chunk with isDuplicate := some (isDuplicate chunk) }) ⟨[], sendBuf⟩

/-- `sub_Compress`. -/
def subCompress (chunk : StageChunk) : Option StageChunk := do
  guard (chunk.state = .uncompressed)
  return { chunk with state := .compressed }

/-- `Compress::compute`. -/
def Compress.compute (sendBuf : Option (Ring StageChunk)) (recvBufV : List (Ring StageChunk)) :
    Option Sending :=
  recvBufV.foldlM (receive fun state chunk => do
    let isDuplicate ← chunk.isDuplicate
    if isDuplicate then state.insert cfg cfg.itemPerInsert chunk
    else
      let chunk ← subCompress chunk
      state.insert cfg cfg.itemPerInsert chunk) ⟨[], sendBuf⟩

/-- `CollapsedPipeline`: the send buffers of its stages. -/
structure CollapsedPipeline where
  /-- `fr`. -/
  fr : Option (Ring StageChunk)
  /-- `d`. -/
  d : Option (Ring StageChunk)
  /-- `c`. -/
  c : Option (Ring StageChunk)

/-- The constructor of a worker. -/
def CollapsedPipeline.new : CollapsedPipeline where
  fr := some (.init cfg.garbage cfg.chunkAnchorPerInsert)
  d := some (.init cfg.garbage cfg.itemPerInsert)
  c := some (.init cfg.garbage cfg.itemPerInsert)

/-- `ringbuffer_insert` without a look at its result. -/
def insertUnchecked (sendBuf : Ring StageChunk) (chunk : StageChunk) :
    Option (Ring StageChunk) := do
  let (_, sendBuf) ← sendBuf.insert chunk
  return sendBuf

/-- `CollapsedPipeline::svc`: the returned buffer, and the worker behind the call. -/
def CollapsedPipeline.svc (isDuplicate : StageChunk → Bool) (worker : CollapsedPipeline)
    (task : Ring StageChunk) : Option (Ring StageChunk × CollapsedPipeline) := do
  let refined ← FragmentRefine.compute cfg worker.fr task
  let deduplicated ← Deduplicate.compute cfg isDuplicate worker.d refined.dataOut
  let toReorder ← Compress.compute cfg worker.c deduplicated.dataOut
  let numChunks := toReorder.dataOut.length * cfg.chunkAnchorPerInsert
  let sendBuf ← toReorder.dataOut.foldlM (fun sendBuf recvBuf =>
    recvBuf.drain some insertUnchecked recvBuf.size sendBuf) (.init cfg.garbage numChunks)
  return (sendBuf, ⟨refined.sendBuf, deduplicated.sendBuf, toReorder.sendBuf⟩)

/-- The loop of `Reorder::svc`: the chunks that are written for a buffer. -/
def reorder (recvBuf : Ring StageChunk) : Option (List StageChunk) :=
  recvBuf.drain some (fun written chunk => some (written ++ [chunk])) recvBuf.size []

/-- The fine chunks of a coarse chunk. -/
def fine (chunk : StageChunk) : List StageChunk :=
  (refine cfg.toPipeConfig chunk.toDataChunk).map fun piece => ⟨piece, chunk.state, none⟩

/-- A fine chunk behind all stages. -/
def processed (isDuplicate : StageChunk → Bool) (chunk : StageChunk) : StageChunk where
  toDataChunk := chunk.toDataChunk
  state := if isDuplicate chunk then chunk.state else .compressed
  isDuplicate := some (isDuplicate chunk)

/-- A new send buffer. -/
def fresh : Ring StageChunk := .init cfg.garbage 1

/-- A buffer with one chunk. -/
def single (chunk : StageChunk) : Ring StageChunk := (fresh cfg).append [] chunk

/-- The empty store is valid. -/
theorem fresh_valid : (fresh cfg).Valid [] := Ring.init_valid cfg.garbage (by decide)

/-- The first chunk has room. -/
theorem insert_fresh (chunk : StageChunk) :
    (fresh cfg).insert chunk = some (true, single cfg chunk) ∧
      (single cfg chunk).Valid [chunk] := by
  have head : (fresh cfg).head < intMax := show 0 < intMax by decide
  have room : ([] : List StageChunk).length < (fresh cfg).capacity := by
    show 0 < (1 + 1) % 2 ^ 64 - 1
    decide
  obtain ⟨inserts, holds⟩ := (fresh_valid cfg).toHolds.insert_append room head chunk
  refine ⟨inserts, holds, ?_⟩
  show (1 + 1) % 2 ^ 64 ≤ intMax
  decide

/-- Each chunk fills the send buffer and is sent. -/
theorem Sending.insert_eq (dataOut : List (Ring StageChunk)) (chunk : StageChunk) :
    Sending.insert cfg 1 ⟨dataOut, some (fresh cfg)⟩ chunk =
      some ⟨dataOut ++ [single cfg chunk], some (fresh cfg)⟩ := by
  obtain ⟨inserts, valid⟩ := insert_fresh cfg chunk
  have full : (single cfg chunk).isFull = some true := by
    rw [valid.toHolds.isFull_eq]
    rfl
  simp only [Sending.insert, inserts, full, guard, Option.bind_eq_bind, Option.bind_some, if_true]
  rfl

/-- The buffers behind those with the chunks: one with the mark behind a marked task. -/
def marks (last : Bool) : List (Ring StageChunk) := if last then [(fresh cfg).setLast] else []

/-- The send buffer behind a task. -/
def left (last : Bool) : Option (Ring StageChunk) := if last then none else some (fresh cfg)

section Stages

variable {cfg}
variable {body : Sending → StageChunk → Option Sending} {f : StageChunk → StageChunk}

/-- A stage that does something with each chunk and sends it. -/
def Sends (cfg : Config) (body : Sending → StageChunk → Option Sending)
    (f : StageChunk → StageChunk) (chunk : StageChunk) : Prop :=
  ∀ dataOut, body ⟨dataOut, some (fresh cfg)⟩ chunk =
    some ⟨dataOut ++ [single cfg (f chunk)], some (fresh cfg)⟩

/-- A loop over parts, with an inner loop over each one. -/
theorem foldlM_flatMap {σ α β : Type} (parts : α → List β) (step : σ → β → Option σ)
    (whole : List α) (state : σ) : (whole.flatMap parts).foldlM step state =
      whole.foldlM (fun state each => (parts each).foldlM step state) state := by
  induction whole generalizing state with
  | nil => rfl
  | cons first rest ih =>
    rw [List.flatMap_cons, List.foldlM_append, List.foldlM_cons]
    exact congrArg _ (funext ih)

/-- What a stage does with some chunks. -/
theorem foldlM_sends {chunks : List StageChunk} (sends : ∀ chunk ∈ chunks, Sends cfg body f chunk)
    (dataOut : List (Ring StageChunk)) :
    chunks.foldlM body ⟨dataOut, some (fresh cfg)⟩ =
      some ⟨dataOut ++ (chunks.map f).map (single cfg), some (fresh cfg)⟩ := by
  induction chunks generalizing dataOut with
  | nil => rw [List.map_nil, List.map_nil, List.append_nil]; rfl
  | cons chunk rest ih =>
    rw [List.foldlM_cons, sends chunk List.mem_cons_self, Option.bind_eq_bind, Option.bind_some,
      ih fun each inside => sends each (List.mem_cons_of_mem _ inside), List.map_cons,
      List.map_cons, List.append_assoc, List.singleton_append]

/-- The end of a stage behind the last chunk of a buffer. -/
theorem receive_eq {recvBuf : Ring StageChunk} {held : List StageChunk}
    (valid : recvBuf.Valid held) {state : Sending} {dataOut : List (Ring StageChunk)}
    (ran : held.foldlM body state = some ⟨dataOut, some (fresh cfg)⟩) :
    receive body state recvBuf =
      some ⟨dataOut ++ marks cfg recvBuf.last, left cfg recvBuf.last⟩ := by
  have drained := valid.drain_eq (fun _ => none) body state
  rw [ran] at drained
  simp only [receive, drained, Option.bind_eq_bind, Option.bind_some]
  cases recvBuf.last with
  | true => rfl
  | false =>
    show some _ = some (Sending.mk (dataOut ++ []) _)
    rw [List.append_nil]
    rfl

/-- A buffer with one chunk is received like the chunk. -/
theorem sends_single {chunk : StageChunk} (sends : Sends cfg body f chunk) :
    Sends cfg (fun state chunk => receive body state (single cfg chunk)) f chunk := by
  intro dataOut
  have ran : [chunk].foldlM body ⟨dataOut, some (fresh cfg)⟩ =
      some ⟨dataOut ++ [single cfg (f chunk)], some (fresh cfg)⟩ := by
    rw [List.foldlM_cons, sends dataOut]
    rfl
  have received := receive_eq (insert_fresh cfg chunk).2 ran
  have unmarked : (single cfg chunk).last = false := rfl
  rw [unmarked] at received
  simpa only [marks, left, Bool.false_eq_true, if_false, List.append_nil] using received

/-- A stage that receives its chunks one by one, and the mark behind them. -/
theorem foldlM_receive {chunks : List StageChunk}
    (sends : ∀ chunk ∈ chunks, Sends cfg body f chunk) (last : Bool) :
    (chunks.map (single cfg) ++ marks cfg last).foldlM (receive body) ⟨[], some (fresh cfg)⟩ =
      some ⟨(chunks.map f).map (single cfg) ++ marks cfg last, left cfg last⟩ := by
  have unmarked : (chunks.map (single cfg)).foldlM (receive body) ⟨[], some (fresh cfg)⟩ =
      some ⟨(chunks.map f).map (single cfg), some (fresh cfg)⟩ := by
    rw [List.foldlM_map]
    exact foldlM_sends (fun chunk inside => sends_single (sends chunk inside)) []
  rw [List.foldlM_append, unmarked, Option.bind_eq_bind, Option.bind_some]
  cases last with
  | true =>
    have received : receive body ⟨(chunks.map f).map (single cfg), some (fresh cfg)⟩
        (fresh cfg).setLast =
        some ⟨(chunks.map f).map (single cfg) ++ marks cfg true, left cfg true⟩ :=
      receive_eq (fresh_valid cfg).setLast rfl
    rw [marks, if_pos rfl, List.foldlM_cons, received]
    rfl
  | false =>
    simp only [marks, left, Bool.false_eq_true, if_false, List.append_nil]
    rfl

end Stages

/-- A new worker has an empty send buffer for each stage. -/
theorem new_eq : CollapsedPipeline.new cfg =
    ⟨some (fresh cfg), some (fresh cfg), some (fresh cfg)⟩ := by
  rw [CollapsedPipeline.new, cfg.chunkAnchorPerInsert_eq, cfg.itemPerInsert_eq]
  rfl

/-- The loop over the pieces sends the fine chunks. -/
theorem refineLoop_eq (l1num : Nat) (chunkState : ChunkState) (chcount : Nat) (data : Bytes)
    (state : Sending) : refineLoop cfg l1num chunkState chcount data state =
      ((refineFrom cfg.toPipeConfig l1num chcount data).map fun piece =>
        (⟨piece, chunkState, none⟩ : StageChunk)).foldlM
        (Sending.insert cfg cfg.chunkAnchorPerInsert) state := by
  induction chcount, data using refineFrom.induct cfg.toPipeConfig generalizing state with
  | case1 chcount data offset split ih =>
    rw [refineLoop, refineFrom, dif_pos split, dif_pos split, List.map_cons, List.foldlM_cons]
    show Option.bind _ _ = Option.bind _ _
    congr 1
    funext next
    exact ih next
  | case2 chcount data offset last =>
    rw [refineLoop, refineFrom, dif_neg last, dif_neg last, List.map_singleton, List.foldlM_cons]
    exact (bind_pure _).symm

/-- `FragmentRefine::compute`. -/
theorem FragmentRefine.compute_eq {task : Ring StageChunk} {held : List StageChunk}
    (valid : task.Valid held) : FragmentRefine.compute cfg (some (fresh cfg)) task =
      some ⟨(held.flatMap (fine cfg)).map (single cfg) ++ marks cfg task.last,
        left cfg task.last⟩ := by
  refine receive_eq valid ?_
  have sends : ∀ chunk, Sends cfg (Sending.insert cfg 1) id chunk := fun chunk dataOut =>
    Sending.insert_eq cfg dataOut chunk
  have loop : (fun state chunk => refineLoop cfg chunk.sequence.l1num chunk.state 0 chunk.data
      state) = fun state chunk => (fine cfg chunk).foldlM (Sending.insert cfg 1) state := by
    funext state chunk
    rw [refineLoop_eq, cfg.chunkAnchorPerInsert_eq]
    rfl
  have whole : (held.flatMap (fine cfg)).foldlM _ _ = _ :=
    foldlM_sends (fun chunk _ => sends chunk) []
  rw [List.map_id, List.nil_append] at whole
  rw [loop, ← whole]
  exact (foldlM_flatMap ..).symm

/-- `Deduplicate::compute` behind `FragmentRefine::compute`. -/
theorem Deduplicate.compute_eq (isDuplicate : StageChunk → Bool) (chunks : List StageChunk)
    (last : Bool) :
    Deduplicate.compute cfg isDuplicate (some (fresh cfg))
        (chunks.map (single cfg) ++ marks cfg last) =
      some ⟨(chunks.map fun chunk => { chunk with isDuplicate := some (isDuplicate chunk) }).map
        (single cfg) ++ marks cfg last, left cfg last⟩ := by
  refine foldlM_receive (fun chunk _ dataOut => ?_) last
  rw [cfg.itemPerInsert_eq]
  exact Sending.insert_eq cfg dataOut _

/-- `Compress::compute` behind `Deduplicate::compute`. -/
theorem Compress.compute_eq (isDuplicate : StageChunk → Bool) {chunks : List StageChunk}
    (plain : ∀ chunk ∈ chunks, chunk.state = .uncompressed) (last : Bool) :
    Compress.compute cfg (some (fresh cfg))
        ((chunks.map fun chunk => { chunk with isDuplicate := some (isDuplicate chunk) }).map
          (single cfg) ++ marks cfg last) =
      some ⟨(chunks.map (processed isDuplicate)).map (single cfg) ++ marks cfg last,
        left cfg last⟩ := by
  have same : chunks.map (processed isDuplicate) =
      (chunks.map fun chunk => { chunk with isDuplicate := some (isDuplicate chunk) }).map
        fun chunk => { chunk with
          state := if chunk.isDuplicate = some true then chunk.state else .compressed } := by
    rw [List.map_map]
    refine List.map_congr_left fun chunk _ => ?_
    simp [processed]
  rw [same]
  refine foldlM_receive (fun marked inside dataOut => ?_) last
  obtain ⟨chunk, here, rfl⟩ := List.mem_map.mp inside
  rw [cfg.itemPerInsert_eq]
  cases decision : isDuplicate chunk with
  | true => exact Sending.insert_eq cfg dataOut _
  | false =>
    have compresses : subCompress { chunk with isDuplicate := some false } =
        some { chunk with state := .compressed, isDuplicate := some false } := by
      simp only [subCompress, plain chunk here, guard, if_true]
      rfl
    show (subCompress _).bind _ = _
    rw [compresses]
    exact Sending.insert_eq cfg dataOut _

/-- The chunks that a worker returns for the coarse chunks of a task. -/
def contents (isDuplicate : StageChunk → Bool) (held : List StageChunk) : List StageChunk :=
  (held.flatMap (fine cfg)).map (processed isDuplicate)

/-- What a worker returns is what the refinement makes of the task. -/
theorem contents_data (isDuplicate : StageChunk → Bool) (held : List StageChunk) :
    (contents cfg isDuplicate held).map StageChunk.toDataChunk =
      held.flatMap fun chunk => refine cfg.toPipeConfig chunk.toDataChunk := by
  rw [contents, List.map_map, List.map_flatMap]
  refine List.flatMap_congr fun chunk _ => ?_
  rw [fine, List.map_map]
  exact List.map_id _

/-- The stage makes one chunk of each fine one. -/
theorem length_contents (isDuplicate : StageChunk → Bool) (held : List StageChunk) :
    (contents cfg isDuplicate held).length = (held.flatMap (fine cfg)).length :=
  List.length_map _

/-- A worker behind a task. -/
def behind (last : Bool) : CollapsedPipeline := ⟨left cfg last, left cfg last, left cfg last⟩

/-- Behind a task without the mark the worker is as it was. -/
theorem behind_unmarked : behind cfg false = .new cfg := (new_eq cfg).symm

/-- The last loop inserts the chunks of all buffers. -/
theorem foldlM_drain (chunks : List StageChunk) (last : Bool) (sendBuf : Ring StageChunk) :
    (chunks.map (single cfg) ++ marks cfg last).foldlM (fun sendBuf recvBuf =>
        recvBuf.drain some insertUnchecked recvBuf.size sendBuf) sendBuf =
      chunks.foldlM insertUnchecked sendBuf := by
  have singles : ∀ sendBuf, (chunks.map (single cfg)).foldlM (fun sendBuf recvBuf =>
      Ring.drain some insertUnchecked recvBuf.size recvBuf sendBuf) sendBuf =
      chunks.foldlM insertUnchecked sendBuf := by
    intro sendBuf
    rw [List.foldlM_map]
    congr 1
    funext sendBuf chunk
    rw [(insert_fresh cfg chunk).2.drain_eq, List.foldlM_cons]
    exact bind_pure _
  rw [List.foldlM_append, singles]
  refine (congrArg _ (funext fun sendBuf => ?_)).trans (bind_pure _)
  cases last with
  | true =>
    rw [marks, if_pos rfl, List.foldlM_cons, (fresh_valid cfg).setLast.drain_eq]
    rfl
  | false => rfl

/-- The service function of a new worker: the three stages hand on all chunks, and the worker has
its empty send buffers again behind a task without the mark. -/
theorem svc_eq (isDuplicate : StageChunk → Bool) {task : Ring StageChunk}
    {held : List StageChunk} (valid : task.Valid held)
    (plain : ∀ chunk ∈ held, chunk.state = .uncompressed) :
    (CollapsedPipeline.new cfg).svc cfg isDuplicate task =
      ((contents cfg isDuplicate held).foldlM insertUnchecked
        (.init cfg.garbage ((contents cfg isDuplicate held).length +
          (marks cfg task.last).length))).map fun sendBuf => (sendBuf, behind cfg task.last) := by
  have plain' : ∀ chunk ∈ held.flatMap (fine cfg), chunk.state = .uncompressed := by
    intro chunk inside
    obtain ⟨coarse, member, here⟩ := List.mem_flatMap.mp inside
    obtain ⟨piece, -, rfl⟩ := List.mem_map.mp here
    exact plain coarse member
  rw [new_eq, CollapsedPipeline.svc]
  simp only [FragmentRefine.compute_eq cfg valid, Deduplicate.compute_eq,
    Compress.compute_eq cfg isDuplicate plain', Option.bind_eq_bind, Option.bind_some,
    foldlM_drain, cfg.chunkAnchorPerInsert_eq, Nat.mul_one, List.length_append, List.length_map]
  rw [← contents, length_contents]
  exact (Option.map_eq_bind ..).symm

/-- Inserting chunks that have room and can be counted. -/
theorem insertUnchecked_holds {buf : Ring StageChunk} {held : List StageChunk}
    (holds : buf.Holds held) (start : buf.tail = 0) (chunks : List StageChunk)
    (room : held.length + chunks.length ≤ buf.capacity)
    (countable : held.length + chunks.length ≤ intMax) :
    ∃ after, chunks.foldlM insertUnchecked buf = some after ∧ after.Holds (held ++ chunks) ∧
      after.tail = 0 := by
  induction chunks generalizing buf held with
  | nil =>
    rw [List.append_nil]
    exact ⟨buf, rfl, holds, start⟩
  | cons chunk rest ih =>
    rw [List.length_cons] at room countable
    have few := holds.length_lt
    have head : buf.head = held.length := by
      rw [holds.head_eq, start]
      unfold place
      split <;> omega
    obtain ⟨inserts, holds'⟩ := holds.insert_append (by omega) (by omega) chunk
    have length : (held ++ [chunk]).length = held.length + 1 := List.length_append
    obtain ⟨after, ran, whole, start'⟩ := ih holds' start
      (by rw [length]; show held.length + 1 + rest.length ≤ buf.capacity; omega)
      (by rw [length]; omega)
    refine ⟨after, ?_, ?_, start'⟩
    · rw [List.foldlM_cons, insertUnchecked, inserts]
      exact ran
    · rw [List.append_assoc, List.singleton_append] at whole
      exact whole

/-- Inserting keeps the head countable and does not move the tail. -/
theorem insertUnchecked_countable {buf after : Ring StageChunk} {chunks : List StageChunk}
    (ran : chunks.foldlM insertUnchecked buf = some after) (start : buf.tail = 0)
    (small : buf.head ≤ intMax) : after.tail = 0 ∧ after.head ≤ intMax := by
  induction chunks generalizing buf with
  | nil =>
    obtain rfl := Option.some.inj ran
    exact ⟨start, small⟩
  | cons chunk rest ih =>
    rw [List.foldlM_cons] at ran
    obtain ⟨next, step, rest⟩ := Option.bind_eq_some_iff.mp ran
    obtain ⟨⟨inserted, next⟩, inserts, same⟩ := Option.bind_eq_some_iff.mp step
    obtain rfl := Option.some.inj same
    obtain ⟨start', small'⟩ := Ring.insert_countable inserts small
    exact ih rest (start'.trans start) small'

/-- A new buffer that is long enough holds the chunks if and only if they can be counted by an
`int`. -/
theorem insert_all_iff (chunks : List StageChunk) (more : Nat) (few : more ≤ 1) :
    (∃ after, chunks.foldlM insertUnchecked (.init cfg.garbage (chunks.length + more)) =
      some after ∧ after.Holds chunks) ↔ chunks.length ≤ intMax := by
  constructor
  · rintro ⟨after, ran, holds⟩
    obtain ⟨start, small⟩ := insertUnchecked_countable ran rfl (Nat.zero_le _)
    have inside := holds.length_lt
    have head := holds.head_eq
    rw [start] at head
    unfold place at head
    split at head <;> omega
  · intro small
    have bound : intMax = 2 ^ 31 - 1 := rfl
    have empty : (Ring.init cfg.garbage (chunks.length + more)).Holds [] :=
      Ring.init_holds cfg.garbage (by omega)
    have room : chunks.length ≤ (Ring.init cfg.garbage (chunks.length + more)).capacity := by
      show chunks.length ≤ (chunks.length + more + 1) % 2 ^ 64 - 1
      omega
    obtain ⟨after, ran, holds, -⟩ := insertUnchecked_holds empty rfl chunks
      (by simpa using room) (by simpa using small)
    exact ⟨after, ran, holds⟩

/-- The writer gets the chunks that a buffer holds, when they can be counted by an `int`. -/
theorem reorder_eq {ring : Ring StageChunk} {chunks : List StageChunk} (holds : ring.Holds chunks)
    (start : ring.tail = 0) (small : chunks.length ≤ intMax) : reorder ring = some chunks := by
  have countable : ∀ i < chunks.length, place ring.size ring.tail i < intMax := by
    intro i inside
    have few := holds.length_lt
    rw [start]
    unfold place
    split <;> omega
  rw [reorder, holds.drain_eq _ _ countable holds.length_lt]
  have appends : ∀ written, chunks.foldlM (fun written chunk =>
      some (written ++ [chunk])) written = some (written ++ chunks) := by
    intro written
    clear holds small countable
    induction chunks generalizing written with
    | nil => rw [List.append_nil]; rfl
    | cons chunk rest ih =>
      rw [List.foldlM_cons, Option.bind_eq_bind, Option.bind_some, ih, List.append_assoc,
        List.singleton_append]
  exact appends []

/-- A task that the emitter sends: a buffer with coarse chunks that are not compressed. -/
structure Task where
  /-- The buffer. -/
  buf : Ring StageChunk
  /-- The coarse chunks in it. -/
  held : List StageChunk
  /-- The buffer holds them. -/
  valid : buf.Valid held
  /-- Only uncompressed data is available. -/
  plain : ∀ chunk ∈ held, chunk.state = .uncompressed

/-- The number of fine chunks of a task. -/
def Task.fineChunks (task : Task) : Nat := (task.held.flatMap (fine cfg)).length

/-- The returned buffer holds the fine chunks of the task, which make up its coarse chunks and are
numbered in order, and the writer gets them in this order. -/
structure Returned (isDuplicate : StageChunk → Bool) (task : Task) (ring : Ring StageChunk) :
    Prop where
  /-- The fine chunks are in the buffer. -/
  holds : ring.Holds (contents cfg isDuplicate task.held)
  /-- The writer gets them. -/
  written : reorder ring = some (contents cfg isDuplicate task.held)
  /-- The fine chunks of a coarse chunk have its data. -/
  data : ∀ chunk ∈ task.held, (fine cfg chunk).flatMap (fun piece => piece.data) = chunk.data
  /-- They have its first-level number and are numbered in order, and the last one is marked. -/
  numbered : ∀ chunk ∈ task.held, (fine cfg chunk).map (fun piece => piece.toFineChunk) =
    (List.range (fine cfg chunk).length).map fun l2num =>
      ⟨⟨chunk.sequence.l1num, l2num⟩, l2num + 1 == (fine cfg chunk).length⟩

/-- A new worker behind a task. -/
theorem svc_next {isDuplicate : StageChunk → Bool} {task : Task} {ring : Ring StageChunk}
    {next : CollapsedPipeline}
    (ran : (CollapsedPipeline.new cfg).svc cfg isDuplicate task.buf = some (ring, next)) :
    next = behind cfg task.buf.last := by
  rw [svc_eq cfg isDuplicate task.valid task.plain] at ran
  obtain ⟨after, -, same⟩ := Option.map_eq_some_iff.mp ran
  exact (Prod.mk.inj same).2.symm

/-- The fine chunks of a coarse chunk have its data. -/
theorem fine_data (chunk : StageChunk) :
    (fine cfg chunk).flatMap (fun piece => piece.data) = chunk.data := by
  rw [fine, List.flatMap_map]
  exact (refineFrom_data cfg.toPipeConfig chunk.sequence.l1num 0 chunk.data).1

/-- The fine chunks of a coarse chunk are numbered in order, when the numbers suffice. -/
theorem fine_numbered {chunk : StageChunk} (small : (fine cfg chunk).length ≤ 2 ^ 32) :
    (fine cfg chunk).map (fun piece => piece.toFineChunk) =
      (List.range (fine cfg chunk).length).map fun l2num =>
        ⟨⟨chunk.sequence.l1num, l2num⟩, l2num + 1 == (fine cfg chunk).length⟩ := by
  rw [fine, List.length_map] at small ⊢
  have numbered := refineFrom_numbered cfg.toPipeConfig chunk.sequence.l1num 0 chunk.data
    (by rw [Nat.zero_add]; exact small)
  rw [List.map_map, List.range_eq_range']
  simp only [Nat.zero_add] at numbered
  exact numbered

/-- A new worker returns the fine chunks of a task if and only if they can be counted by an
`int`. -/
theorem svc_returned_iff (isDuplicate : StageChunk → Bool) (task : Task) :
    (∃ ring next, (CollapsedPipeline.new cfg).svc cfg isDuplicate task.buf = some (ring, next) ∧
      next = behind cfg task.buf.last ∧ Returned cfg isDuplicate task ring) ↔
      task.fineChunks cfg ≤ intMax := by
  have few : (marks cfg task.buf.last).length ≤ 1 := by
    cases task.buf.last with
    | true => exact le_rfl
    | false => exact Nat.zero_le 1
  have inserts := insert_all_iff cfg (contents cfg isDuplicate task.held) _ few
  rw [length_contents] at inserts
  rw [svc_eq cfg isDuplicate task.valid task.plain, length_contents, Task.fineChunks, ← inserts]
  constructor
  · rintro ⟨ring, next, ran, -, returned⟩
    obtain ⟨after, inserted, same⟩ := Option.map_eq_some_iff.mp ran
    obtain ⟨rfl, -⟩ := Prod.mk.inj same
    exact ⟨after, inserted, returned.holds⟩
  · intro holds
    have small := inserts.mp holds
    obtain ⟨after, ran, holds⟩ := holds
    rw [ran]
    have start := (insertUnchecked_countable ran rfl (Nat.zero_le _)).1
    refine ⟨after, _, rfl, rfl, holds, reorder_eq holds start ?_,
      fun chunk _ => fine_data cfg chunk, fun chunk member => fine_numbered cfg ?_⟩
    · rw [length_contents]
      exact small
    · have part : (fine cfg chunk).length ≤ (task.held.flatMap (fine cfg)).length :=
        List.Sublist.length_le (List.sublist_flatten_of_mem (List.mem_map_of_mem member))
      have bound : intMax ≤ 2 ^ 32 := by decide
      omega

/-- The calls of the service function of one worker, with what `sub_Deduplicate` finds in each one:
the returned buffers, and the worker behind the calls. -/
def CollapsedPipeline.serve (worker : CollapsedPipeline) :
    List (Task × (StageChunk → Bool)) → Option (List (Ring StageChunk) × CollapsedPipeline)
  | [] => some ([], worker)
  | (task, isDuplicate) :: calls => do
    let (ring, worker) ← worker.svc cfg isDuplicate task.buf
    let (rings, worker) ← worker.serve calls
    return (ring :: rings, worker)

/-- A worker returns the fine chunks of each of its tasks. -/
def CollapsedPipeline.Serves (worker : CollapsedPipeline)
    (calls : List (Task × (StageChunk → Bool))) : Prop :=
  ∃ rings next, worker.serve cfg calls = some (rings, next) ∧
    List.Forall₂ (fun call ring => Returned cfg call.2 call.1 ring) calls rings

/-- The first task, and the others behind it. -/
theorem serves_cons (worker : CollapsedPipeline) (task : Task) (isDuplicate : StageChunk → Bool)
    (calls : List (Task × (StageChunk → Bool))) :
    worker.Serves cfg ((task, isDuplicate) :: calls) ↔
      ∃ ring next, worker.svc cfg isDuplicate task.buf = some (ring, next) ∧
        Returned cfg isDuplicate task ring ∧ next.Serves cfg calls := by
  constructor
  · rintro ⟨rings, last, ran, returned⟩
    obtain ⟨⟨ring, next⟩, first, rest⟩ := Option.bind_eq_some_iff.mp ran
    obtain ⟨⟨others, last⟩, behind, same⟩ := Option.bind_eq_some_iff.mp rest
    obtain ⟨rfl, rfl⟩ := Prod.mk.inj (Option.some.inj same)
    obtain ⟨here, there⟩ := List.forall₂_cons.mp returned
    exact ⟨ring, next, first, here, others, last, behind, there⟩
  · rintro ⟨ring, next, first, here, others, last, behind, there⟩
    refine ⟨ring :: others, last, ?_, .cons here there⟩
    rw [CollapsedPipeline.serve, first, Option.bind_eq_bind, Option.bind_some]
    show Option.bind _ _ = _
    rw [behind]
    rfl

/-- Only the last task of a worker is marked. -/
def MarkedLast (calls : List (Task × (StageChunk → Bool))) : Prop :=
  ∀ call ∈ calls.dropLast, call.1.buf.last = false

/-- A new worker serves all its tasks if and only if the fine chunks of each one can be counted by
an `int`. -/
theorem new_serves_iff {calls : List (Task × (StageChunk → Bool))} (marked : MarkedLast calls) :
    (CollapsedPipeline.new cfg).Serves cfg calls ↔
      ∀ call ∈ calls, call.1.fineChunks cfg ≤ intMax := by
  induction calls with
  | nil => exact iff_of_true ⟨[], .new cfg, rfl, .nil⟩ nofun
  | cons call calls ih =>
    obtain ⟨task, isDuplicate⟩ := call
    -- behind a task that is not the last one the worker is as it was
    have others : (behind cfg task.buf.last).Serves cfg calls ↔
        ∀ call ∈ calls, call.1.fineChunks cfg ≤ intMax := by
      cases calls with
      | nil => exact iff_of_true ⟨[], _, rfl, .nil⟩ nofun
      | cons second rest =>
        have unmarked : task.buf.last = false := marked (task, isDuplicate) List.mem_cons_self
        rw [unmarked, behind_unmarked]
        exact ih fun each inside => marked each (List.mem_cons_of_mem _ inside)
    rw [serves_cons, List.forall_mem_cons, ← svc_returned_iff cfg isDuplicate task, ← others]
    constructor
    · rintro ⟨ring, next, ran, returned, serves⟩
      obtain rfl := svc_next cfg ran
      exact ⟨⟨ring, _, ran, rfl, returned⟩, serves⟩
    · rintro ⟨⟨ring, next, ran, rfl, returned⟩, serves⟩
      exact ⟨ring, _, ran, returned, serves⟩

/-- The ordered farm: its workers, the buffers that they have returned for the tasks, and what the
collector has done. -/
structure Farm where
  /-- The workers. -/
  workers : Nat → CollapsedPipeline
  /-- The buffer returned for a task, none before. -/
  results : Nat → Option (Ring StageChunk)
  /-- The number of results that the collector has taken. -/
  collected : Nat
  /-- The chunks that the collector has written. -/
  written : List StageChunk

/-- The farm at the begin. -/
def Farm.new : Farm := ⟨fun _ => .new cfg, fun _ => none, 0, []⟩

/-- A task is the next one of its worker: the earlier tasks of the worker are done. -/
def Farm.Ready (worker : Nat → Nat) (farm : Farm) (i : Nat) : Prop :=
  farm.results i = none ∧ ∀ j < i, worker j = worker i → (farm.results j).isSome = true

/-- A step of the farm, which has given each task to a worker: a worker serves its next task, or the
collector takes the next result in the order of the tasks. -/
inductive Farm.Step (worker : Nat → Nat) (tasks : List Task) : Farm → Farm → Prop where
  /-- `CollapsedPipeline::svc`. -/
  | svc {farm : Farm} {i : Nat} {task : Task} {isDuplicate : StageChunk → Bool}
    {ring : Ring StageChunk} {next : CollapsedPipeline} (given : tasks[i]? = some task)
    (ready : farm.Ready worker i)
    (ran : (farm.workers (worker i)).svc cfg isDuplicate task.buf = some (ring, next)) :
    Step worker tasks farm { farm with
      workers := Function.update farm.workers (worker i) next
      results := Function.update farm.results i (some ring) }
  /-- `Reorder::svc`. -/
  | collect {farm : Farm} {ring : Ring StageChunk} {chunks : List StageChunk}
    (here : farm.results farm.collected = some ring) (ran : reorder ring = some chunks) :
    Step worker tasks farm { farm with
      collected := farm.collected + 1
      written := farm.written ++ chunks }

/-- Only the last task of each worker is marked. -/
def MarkedLastOfWorker (worker : Nat → Nat) (tasks : List Task) : Prop :=
  ∀ i j (task later : Task), i < j → tasks[i]? = some task → tasks[j]? = some later →
    task.buf.last = true → worker i ≠ worker j

/-- Each worker serves its next task, the collector can take each result, and the written chunks are
the fine chunks of the first tasks in input order. -/
structure Farm.Correct (worker : Nat → Nat) (tasks : List Task) (farm : Farm) : Prop where
  /-- A service function that is called returns the fine chunks of its task. -/
  serves : ∀ i task isDuplicate, tasks[i]? = some task → farm.Ready worker i →
    ∃ ring next, (farm.workers (worker i)).svc cfg isDuplicate task.buf = some (ring, next) ∧
      Returned cfg isDuplicate task ring
  /-- A returned buffer holds the fine chunks of its task. -/
  returned : ∀ i ring, farm.results i = some ring →
    ∃ task isDuplicate, tasks[i]? = some task ∧ Returned cfg isDuplicate task ring
  /-- The writer has seen the fine chunks in input order. -/
  written : farm.written.map StageChunk.toDataChunk =
    ((tasks.take farm.collected).flatMap Task.held).flatMap fun chunk =>
      refine cfg.toPipeConfig chunk.toDataChunk

namespace Farm

variable {cfg} {worker : Nat → Nat} {tasks : List Task} {farm next : Farm}

/-- What all steps of a farm keep. -/
structure Inv (cfg : Config) (worker : Nat → Nat) (tasks : List Task) (farm : Farm) : Prop where
  /-- The tasks of a worker are served in order. -/
  ordered : ∀ i j, i < j → worker i = worker j → (farm.results j).isSome = true →
    (farm.results i).isSome = true
  /-- A worker that has not served its marked task is as it was at the begin. -/
  fresh : ∀ w, (∀ i task, tasks[i]? = some task → worker i = w → task.buf.last = true →
    farm.results i = none) → farm.workers w = .new cfg
  /-- A returned buffer holds the fine chunks of its task. -/
  returned : ∀ i ring, farm.results i = some ring →
    ∃ task isDuplicate, tasks[i]? = some task ∧ Returned cfg isDuplicate task ring
  /-- The written chunks are those of the first tasks. -/
  written : farm.written.map StageChunk.toDataChunk =
    ((tasks.take farm.collected).flatMap Task.held).flatMap fun chunk =>
      refine cfg.toPipeConfig chunk.toDataChunk

/-- The invariant holds at the start. -/
theorem inv_new : (Farm.new cfg).Inv cfg worker tasks :=
  ⟨fun _ _ _ _ => nofun, fun _ _ => rfl, fun _ _ => nofun, rfl⟩

/-- The worker of a task that is ready has all its send buffers. -/
theorem Inv.worker_eq (inv : farm.Inv cfg worker tasks) (marked : MarkedLastOfWorker worker tasks)
    {i : Nat} {task : Task} (given : tasks[i]? = some task) (ready : farm.Ready worker i) :
    farm.workers (worker i) = .new cfg := by
  refine inv.fresh (worker i) fun j other given' same last => ?_
  by_contra done
  have done : (farm.results j).isSome = true := Option.isSome_iff_ne_none.mpr done
  rcases Nat.lt_trichotomy i j with before | rfl | behind
  · have earlier := inv.ordered i j before same.symm done
    rw [ready.1] at earlier
    exact nomatch earlier
  · rw [ready.1] at done
    exact nomatch done
  · exact marked j i other task behind given' given last same

/-- A worker that serves its next task. -/
theorem Inv.serves (inv : farm.Inv cfg worker tasks) (marked : MarkedLastOfWorker worker tasks)
    {i : Nat} {task : Task} (given : tasks[i]? = some task) (ready : farm.Ready worker i)
    (small : task.fineChunks cfg ≤ intMax) (isDuplicate : StageChunk → Bool) :
    ∃ ring next, (farm.workers (worker i)).svc cfg isDuplicate task.buf = some (ring, next) ∧
      next = behind cfg task.buf.last ∧ Returned cfg isDuplicate task ring := by
  rw [inv.worker_eq marked given ready]
  exact (svc_returned_iff cfg isDuplicate task).mpr small

/-- Every step keeps the invariant. -/
theorem Inv.step (inv : farm.Inv cfg worker tasks) (marked : MarkedLastOfWorker worker tasks)
    (small : ∀ task ∈ tasks, task.fineChunks cfg ≤ intMax)
    (moves : Step cfg worker tasks farm next) :
    next.Inv cfg worker tasks := by
  cases moves with
  | @svc i task isDuplicate ring next given ready ran =>
    obtain ⟨ring', next', ran', rfl, returned⟩ :=
      inv.serves marked given ready (small task (List.mem_of_getElem? given)) isDuplicate
    obtain ⟨rfl, rfl⟩ := Prod.mk.inj (Option.some.inj (ran.symm.trans ran'))
    have own : Function.update farm.results i (some ring) i = some ring := Function.update_self ..
    have other : ∀ j, j ≠ i → Function.update farm.results i (some ring) j = farm.results j :=
      fun j apart => Function.update_of_ne apart ..
    refine ⟨fun j k before same done => ?_, fun w waits => ?_, fun j ring' here => ?_, inv.written⟩
    · dsimp only at done ⊢
      by_cases first : j = i
      · rw [first, own]
        rfl
      · rw [other j first]
        by_cases last : k = i
        · exact ready.2 j (last ▸ before) (last ▸ same)
        · rw [other k last] at done
          exact inv.ordered j k before same done
    · dsimp only at waits ⊢
      by_cases here : w = worker i
      · have unmarked : task.buf.last = false := by
          by_contra last
          have undone := waits i task given here.symm (Bool.not_eq_false _ ▸ last)
          rw [own] at undone
          exact nomatch undone
        rw [here, Function.update_self, unmarked, behind_unmarked]
      · rw [Function.update_of_ne here]
        refine inv.fresh w fun j task' given' same last => ?_
        have undone := waits j task' given' same last
        rwa [other j fun equal => here (equal ▸ same.symm)] at undone
    · dsimp only at here
      by_cases same : j = i
      · subst same
        obtain rfl := Option.some.inj (own.symm.trans here)
        exact ⟨task, isDuplicate, given, returned⟩
      · rw [other j same] at here
        exact inv.returned j ring' here
  | @collect ring chunks here ran =>
    refine ⟨inv.ordered, inv.fresh, inv.returned, ?_⟩
    obtain ⟨task, isDuplicate, given, returned⟩ := inv.returned _ ring here
    obtain rfl := Option.some.inj (ran.symm.trans returned.written)
    dsimp only
    rw [List.map_append, inv.written, contents_data, List.take_add_one, given, List.flatMap_append,
      List.flatMap_append]
    congr 1
    simp

/-- A farm whose tasks have fine chunks that can be counted by an `int` is correct in all runs. -/
theorem reached_correct (marked : MarkedLastOfWorker worker tasks)
    (small : ∀ task ∈ tasks, task.fineChunks cfg ≤ intMax)
    (reached : Reachable (· = Farm.new cfg) (Step cfg worker tasks) farm) :
    farm.Correct cfg worker tasks := by
  have inv : farm.Inv cfg worker tasks :=
    reached.invariant (fun state start => start ▸ inv_new) fun state next inv moves =>
      inv.step marked small moves
  refine ⟨fun i task isDuplicate given ready => ?_, inv.returned, inv.written⟩
  obtain ⟨ring, next, ran, -, returned⟩ :=
    inv.serves marked given ready (small task (List.mem_of_getElem? given)) isDuplicate
  exact ⟨ring, next, ran, returned⟩

end Farm

/-- A worker returns the fine chunks of each of its tasks, whatever it has served before, if and
only if the fine chunks of each task can be counted by an `int`; and then the ordered farm writes
the fine chunks of all tasks in input order. -/
theorem collapsedPipeline_correct :
    (∀ calls, MarkedLast calls → ((CollapsedPipeline.new cfg).Serves cfg calls ↔
      ∀ call ∈ calls, call.1.fineChunks cfg ≤ intMax)) ∧
    ∀ worker tasks, MarkedLastOfWorker worker tasks →
      (∀ task ∈ tasks, task.fineChunks cfg ≤ intMax) → ∀ farm,
        Reachable (· = Farm.new cfg) (Farm.Step cfg worker tasks) farm →
          farm.Correct cfg worker tasks :=
  ⟨fun _ marked => new_serves_iff cfg marked,
    fun _ _ marked small _ reached => Farm.reached_correct marked small reached⟩

/-- An anchor behind every byte. -/
def everyByte : Config where
  anchorDataPerInsert := 1
  chunkAnchorPerInsert := 1
  itemPerInsert := 1
  rabinseg _ := 1
  anchorDataPerInsert_pos := Nat.one_pos
  chunkAnchorPerInsert_pos := Nat.one_pos
  itemPerInsert_pos := Nat.one_pos
  rabinseg_pos _ _ := Nat.one_pos
  chunkAnchorPerInsert_eq := rfl
  itemPerInsert_eq := rfl
  garbage _ := none

/-- A coarse chunk of some length. -/
def coarse (n : Nat) : StageChunk := ⟨⟨⟨⟨0, 0⟩, false⟩, List.replicate n 0⟩, .uncompressed, none⟩

/-- A task with one coarse chunk. -/
def oneCoarse (n : Nat) : Task where
  buf := single everyByte (coarse n)
  held := [coarse n]
  valid := (insert_fresh everyByte (coarse n)).2
  plain := List.forall_mem_singleton.mpr rfl

/-- Each byte is a fine chunk. -/
theorem length_refineFrom (chcount : Nat) (data : Bytes) (some : data ≠ []) :
    (refineFrom everyByte.toPipeConfig 0 chcount data).length = data.length := by
  induction chcount, data using refineFrom.induct everyByte.toPipeConfig with
  | case1 chcount data offset split ih =>
    have size : everyByte.rabinseg data = 1 := rfl
    rw [refineFrom, dif_pos split, List.length_cons, ih, List.length_drop]
    · omega
    · exact fun none => absurd (List.drop_eq_nil_iff.mp none) (Nat.not_le.mpr split)
  | case2 chcount data offset last =>
    have size : everyByte.rabinseg data = 1 := rfl
    have positive := List.length_pos_of_ne_nil some
    rw [refineFrom, dif_neg last, List.length_singleton]
    omega

/-- With an anchor behind every byte there are as many fine chunks as bytes. -/
theorem fineChunks_oneCoarse {n : Nat} (positive : 0 < n) :
    (oneCoarse n).fineChunks everyByte = n := by
  have length : (coarse n).data.length = n := List.length_replicate
  have some : (coarse n).data ≠ [] := List.ne_nil_of_length_pos (length.symm ▸ positive)
  rw [Task.fineChunks, oneCoarse, List.flatMap_singleton, fine, List.length_map]
  exact (length_refineFrom 0 _ some).trans length

/-- A worker whose `svc` gets a task with 2^31 fine chunks does not return them. -/
theorem collapsedPipeline_overflows : ¬(CollapsedPipeline.new everyByte).Serves everyByte
    [(oneCoarse (2 ^ 31), fun _ => false)] := by
  have marked : MarkedLast [(oneCoarse (2 ^ 31), fun _ => false)] := nofun
  rw [new_serves_iff everyByte marked, List.forall_mem_singleton,
    fineChunks_oneCoarse (Nat.two_pow_pos 31)]
  decide

end P3arsec.Dedup.Collapsed
