import P3arsec.Lib.Marks
import P3arsec.Dedup.Encoder
import P3arsec.Dedup.Reorder

/-!
# The workers of the pipeline of farms

The stages hand chunks on in ring buffers. A buffer may carry one of two marks: it is the last
one of its stream, or its chunks are duplicates and bypass the compression. A worker fills a
buffer of its own and sends it when it is full; at a marked input it sends what it has, marked,
and has no buffer any more.

`Worker.Spec` says what the three kinds of workers have in common: no chunk is lost, unmarked
inputs give unmarked outputs, and a marked input empties the worker and closes its output.
-/

namespace P3arsec.Dedup

open P3arsec.Lib

/-- A chunk with its place and data; what the later stages add to it is left out. -/
structure DataChunk extends FineChunk where
  /-- The data cut out of the input. -/
  data : Bytes
  deriving DecidableEq, Repr

/-- A `ringbuffer_t`, as the list of the chunks in it. -/
structure Ringbuffer where
  /-- The chunks, oldest first. -/
  data : List DataChunk
  /-- How many chunks have room. -/
  size : Nat
  /-- Whether this is the last buffer of the stream. -/
  last : Bool
  /-- Whether the chunks bypass the compression. -/
  bypassCompress : Bool
  /-- A buffer never carries both marks. -/
  exclusive : (last && bypassCompress) = false
  deriving DecidableEq, Repr

namespace Ringbuffer

/-- `ringbuffer_init`. -/
def init (size : Nat) : Ringbuffer := ⟨[], size, false, false, rfl⟩

/-- `ringbuffer_isFull`. -/
def isFull (buf : Ringbuffer) : Bool := buf.data.length == buf.size

/-- `ringbuffer_setLast`. -/
def setLast (buf : Ringbuffer) (plain : buf.bypassCompress = false) : Ringbuffer :=
  { buf with last := true, exclusive := by simp [plain] }

/-- `ringbuffer_resetLast`. -/
def resetLast (buf : Ringbuffer) : Ringbuffer := { buf with last := false, exclusive := rfl }

/-- `ringbuffer_setBypassCompress`. -/
def setBypassCompress (buf : Ringbuffer) (plain : buf.last = false) : Ringbuffer :=
  { buf with bypassCompress := true, exclusive := by simp [plain] }

/-- The new marked buffer that an emitter makes for each further worker. -/
def mark (size : Nat) : Ringbuffer := (init size).setLast rfl

/-- The chunks of a buffer. -/
def chunks (buf : Ringbuffer) : Multiset DataChunk := buf.data

/-- The mark is set. -/
@[simp] theorem last_setLast (buf : Ringbuffer) (plain : buf.bypassCompress = false) :
    (buf.setLast plain).last = true := rfl

/-- The other mark is none of the end. -/
@[simp] theorem last_setBypassCompress (buf : Ringbuffer) (plain : buf.last = false) :
    (buf.setBypassCompress plain).last = false := plain

/-- The mark is taken back. -/
@[simp] theorem last_resetLast (buf : Ringbuffer) : buf.resetLast.last = false := rfl

/-- The buffer that ends the stream is marked. -/
@[simp] theorem last_mark (size : Nat) : (mark size).last = true := rfl

/-- The mark keeps the chunks of a buffer. -/
@[simp] theorem data_setLast (buf : Ringbuffer) (plain : buf.bypassCompress = false) :
    (buf.setLast plain).data = buf.data := rfl

/-- The other mark keeps them too. -/
@[simp] theorem data_setBypassCompress (buf : Ringbuffer) (plain : buf.last = false) :
    (buf.setBypassCompress plain).data = buf.data := rfl

/-- A marked buffer has the same chunks. -/
@[simp] theorem chunks_setLast (buf : Ringbuffer) (plain : buf.bypassCompress = false) :
    (buf.setLast plain).chunks = buf.chunks := rfl

/-- So has one with the other mark. -/
@[simp] theorem chunks_setBypassCompress (buf : Ringbuffer) (plain : buf.last = false) :
    (buf.setBypassCompress plain).chunks = buf.chunks := rfl

/-- So has one without the mark. -/
@[simp] theorem chunks_resetLast (buf : Ringbuffer) : buf.resetLast.chunks = buf.chunks := rfl

/-- The buffer that ends the stream has no chunks. -/
@[simp] theorem chunks_mark (size : Nat) : (mark size).chunks = 0 := rfl

end Ringbuffer

/-- A buffer that a stage is filling: it has room and no mark. -/
structure SendBuf extends Ringbuffer where
  /-- One more chunk has room. -/
  room : data.length < size
  /-- It is not marked as the last one. -/
  notLast : last = false
  /-- It is not marked for the bypass. -/
  notBypass : bypassCompress = false

namespace SendBuf

/-- A new buffer. -/
def new (size : Nat) (positive : 0 < size) : SendBuf := ⟨.init size, positive, rfl, rfl⟩

/-- `ringbuffer_insert` into a buffer that has room. -/
def insert (buf : SendBuf) (chunk : DataChunk) : Ringbuffer :=
  { buf.toRingbuffer with data := buf.data ++ [chunk] }

/-- A buffer that is not full after an insertion can be filled further. -/
def ofInsert (buf : SendBuf) (chunk : DataChunk) (more : (buf.insert chunk).isFull = false) :
    SendBuf where
  toRingbuffer := buf.insert chunk
  room := by
    have before := buf.room
    have unfilled : buf.data.length + 1 ≠ buf.size := by
      simpa [Ringbuffer.isFull, insert] using more
    show (buf.data ++ [chunk]).length < buf.size
    rw [List.length_append, List.length_singleton]
    omega
  notLast := buf.notLast
  notBypass := buf.notBypass

/-- A buffer that is filled is not marked. -/
@[simp] theorem last_insert (buf : SendBuf) (chunk : DataChunk) :
    (buf.insert chunk).last = false := buf.notLast

/-- Nor has it the other mark. -/
@[simp] theorem bypassCompress_insert (buf : SendBuf) (chunk : DataChunk) :
    (buf.insert chunk).bypassCompress = false := buf.notBypass

/-- A chunk is put into the buffer. -/
@[simp] theorem chunks_insert (buf : SendBuf) (chunk : DataChunk) :
    (buf.insert chunk).chunks = buf.chunks + {chunk} := by
  simp [insert, Ringbuffer.chunks, ← Multiset.coe_add]

/-- A chunk is put into the buffer that is not full. -/
@[simp] theorem chunks_ofInsert (buf : SendBuf) (chunk : DataChunk)
    (more : (buf.insert chunk).isFull = false) :
    (buf.ofInsert chunk more).chunks = buf.chunks + {chunk} := chunks_insert buf chunk

/-- A new buffer is empty. -/
@[simp] theorem chunks_new (size : Nat) (positive : 0 < size) : (new size positive).chunks = 0 :=
  rfl

end SendBuf

/-- The `int` that a value is stored in: of a value from 2^31 on the low 32 bits are kept. -/
def toInt (value : Nat) : Int := (BitVec.ofNat 32 value).toInt

/-- A value below 2^31 is kept. -/
theorem toInt_of_lt {value : Nat} (small : value < 2 ^ 31) : toInt value = value := by
  have fits : value % 2 ^ 32 = value := Nat.mod_eq_of_lt (by omega)
  have same : (BitVec.ofNat 32 value).toNat = value := by rw [BitVec.toNat_ofNat, fits]
  rw [toInt, BitVec.toInt_eq_toNat_of_lt (by omega), same]

/-- The constants of the buffers and the Rabin fingerprint search. -/
structure PipeConfig where
  /-- `ANCHOR_DATA_PER_INSERT`. -/
  anchorDataPerInsert : Nat
  /-- `CHUNK_ANCHOR_PER_INSERT`. -/
  chunkAnchorPerInsert : Nat
  /-- `ITEM_PER_INSERT`. -/
  itemPerInsert : Nat
  /-- `rabinseg`: the offset of the next anchor, the length of the data if there is none. -/
  rabinseg : Bytes → Nat
  /-- A buffer of coarse chunks has room. -/
  anchorDataPerInsert_pos : 0 < anchorDataPerInsert
  /-- A buffer of refined chunks has room. -/
  chunkAnchorPerInsert_pos : 0 < chunkAnchorPerInsert
  /-- A buffer of deduplicated or compressed chunks has room. -/
  itemPerInsert_pos : 0 < itemPerInsert
  /-- An anchor is never at the very beginning of the data. -/
  rabinseg_pos : ∀ data, rabinseg data < data.length → 0 < rabinseg data

variable (cfg : PipeConfig)

/-- The chunks of a list of buffers. -/
def chunksOf (bufs : List Ringbuffer) : Multiset DataChunk := (bufs.map Ringbuffer.chunks).sum

/-- The marks of a list of buffers. -/
def marksOf (bufs : List Ringbuffer) : List Bool := bufs.map Ringbuffer.last

/-- No buffers have no chunks. -/
@[simp] theorem chunksOf_nil : chunksOf [] = 0 := rfl

/-- The chunks of the first buffer and of the others. -/
@[simp] theorem chunksOf_cons (buf : Ringbuffer) (bufs : List Ringbuffer) :
    chunksOf (buf :: bufs) = buf.chunks + chunksOf bufs := by
  simp [chunksOf]

/-- The chunks of two lists of buffers. -/
@[simp] theorem chunksOf_append (front back : List Ringbuffer) :
    chunksOf (front ++ back) = chunksOf front + chunksOf back := by
  simp [chunksOf]

/-- No buffers have no marks. -/
@[simp] theorem marksOf_nil : marksOf [] = [] := rfl

/-- The mark of the first buffer and of the others. -/
@[simp] theorem marksOf_cons (buf : Ringbuffer) (bufs : List Ringbuffer) :
    marksOf (buf :: bufs) = buf.last :: marksOf bufs := rfl

/-- The marks of two lists of buffers. -/
@[simp] theorem marksOf_append (front back : List Ringbuffer) :
    marksOf (front ++ back) = marksOf front ++ marksOf back := by
  simp [marksOf]

/-- There are no marks without buffers. -/
@[simp] theorem marksOf_eq_nil {bufs : List Ringbuffer} : marksOf bufs = [] ↔ bufs = [] := by
  simp [marksOf]

/-- The loop of `FragmentRefine` over the pieces of a coarse chunk. The first piece keeps the
chunk, and what is left goes on as a chunk with the same first-level number. -/
def refineFrom (l1num chcount : Nat) (data : Bytes) : List DataChunk :=
  let offset := cfg.rabinseg data
  if split : offset < data.length then
    ⟨⟨⟨l1num, chcount⟩, false⟩, data.take offset⟩ ::
      refineFrom l1num ((chcount + 1) % 2 ^ 32) (data.drop offset)
  else [⟨⟨⟨l1num, chcount⟩, true⟩, data⟩]
  termination_by data.length
  decreasing_by
    have positive := cfg.rabinseg_pos data split
    rw [List.length_drop]
    omega

/-- The fine chunks of a coarse chunk. -/
def refine (chunk : DataChunk) : List DataChunk := refineFrom cfg chunk.sequence.l1num 0 chunk.data

/-- Insert a chunk into a send buffer; when the buffer is full it is sent, wrapped as the stage
does it, and a new one is begun. There is no buffer after a marked one has been sent. -/
def enqueue (wrap : ∀ buf : Ringbuffer, buf.last = false → Ringbuffer) (size : Nat)
    (positive : 0 < size) (state : List Ringbuffer × Option SendBuf) (chunk : DataChunk) :
    Option (List Ringbuffer × Option SendBuf) := do
  let sendBuf ← state.2
  if full : (sendBuf.insert chunk).isFull then
    some (state.1 ++ [wrap (sendBuf.insert chunk) (SendBuf.last_insert _ _)],
      some (.new size positive))
  else some (state.1, some (sendBuf.ofInsert chunk (by simpa using full)))

/-- A buffer is sent as it is. -/
def plain (buf : Ringbuffer) (_ : buf.last = false) : Ringbuffer := buf

/-- The member of `FragmentRefine`. -/
structure FragmentRefine where
  /-- The buffer being filled, none after it has been sent with the mark. -/
  sendBuf : Option SendBuf

/-- `FragmentRefine::svc`: the buffers it sends, and the worker afterwards. -/
def FragmentRefine.svc (worker : FragmentRefine) (recvBuf : Ringbuffer) :
    Option (List Ringbuffer × FragmentRefine) := do
  let (sent, sendBuf) ← (recvBuf.data.flatMap (refine cfg)).foldlM
    (enqueue plain cfg.chunkAnchorPerInsert cfg.chunkAnchorPerInsert_pos) ([], worker.sendBuf)
  if recvBuf.last then
    let buf ← sendBuf
    some (sent ++ [buf.setLast buf.notBypass], ⟨none⟩)
  else some (sent, ⟨sendBuf⟩)

/-- The members of `Deduplicate`. -/
structure Deduplicate where
  /-- The buffer of duplicates. -/
  sendBufReorder : Option SendBuf
  /-- The buffer of originals. -/
  sendBufCompress : Option SendBuf

/-- The body of the loop of `Deduplicate::svc`, where the shared hash table has told whether the
chunk is a duplicate. -/
def Deduplicate.route (state : List Ringbuffer × Deduplicate) (entry : DataChunk × Bool) :
    Option (List Ringbuffer × Deduplicate) := do
  if entry.2 then
    let (sent, buf) ← enqueue Ringbuffer.setBypassCompress cfg.itemPerInsert cfg.itemPerInsert_pos
      (state.1, state.2.sendBufReorder) entry.1
    some (sent, { state.2 with sendBufReorder := buf })
  else
    let (sent, buf) ← enqueue plain cfg.itemPerInsert cfg.itemPerInsert_pos
      (state.1, state.2.sendBufCompress) entry.1
    some (sent, { state.2 with sendBufCompress := buf })

/-- `Deduplicate::svc`, where `isDuplicate` is what `sub_Deduplicate` returns for the chunks of
the buffer, by their positions. -/
def Deduplicate.svc (isDuplicate : Nat → Bool) (worker : Deduplicate) (recvBuf : Ringbuffer) :
    Option (List Ringbuffer × Deduplicate) := do
  let (sent, worker) ← (recvBuf.data.zipIdx.map fun entry => (entry.1, isDuplicate entry.2)).foldlM
    (route cfg) ([], worker)
  if recvBuf.last then
    let bufReorder ← worker.sendBufReorder
    let bufCompress ← worker.sendBufCompress
    some (sent ++ [bufReorder.setBypassCompress bufReorder.notLast,
      bufCompress.setLast bufCompress.notBypass], ⟨none, none⟩)
  else some (sent, worker)

/-- The member of `Compress`. -/
structure Compress where
  /-- The buffer being filled, none after it has been sent with the mark. -/
  sendBuf : Option SendBuf

/-- `Compress::svc`. -/
def Compress.svc (worker : Compress) (recvBuf : Ringbuffer) :
    Option (List Ringbuffer × Compress) := do
  if recvBuf.bypassCompress then some ([recvBuf], worker)
  else
    let (sent, sendBuf) ← recvBuf.data.foldlM
      (enqueue plain cfg.itemPerInsert cfg.itemPerInsert_pos) ([], worker.sendBuf)
    if recvBuf.last then
      let buf ← sendBuf
      some (sent ++ [buf.setLast buf.notBypass], ⟨none⟩)
    else some (sent, ⟨sendBuf⟩)

/-- What a farm relies on in its workers. -/
structure Role (S : Type) where
  /-- The service function, with the decisions that it takes from outside. -/
  svc : (Nat → Bool) → S → Ringbuffer → Option (List Ringbuffer × S)
  /-- A worker at the start. -/
  start : S
  /-- The fine chunks that a received buffer stands for. -/
  weight : Ringbuffer → Multiset DataChunk
  /-- The chunks in the buffers that the worker is filling. -/
  held : S → Multiset DataChunk
  /-- The worker has its buffers. -/
  live : S → Prop
  /-- A new marked buffer stands for no chunk. -/
  weight_mark : ∀ size, weight (.mark size) = 0
  /-- A worker begins with its buffers. -/
  live_start : live start
  /-- A worker begins with no chunk. -/
  held_start : held start = 0
  /-- No chunk is lost or made up; unmarked inputs give unmarked outputs, and a marked input
  empties the worker and makes its last output the only marked one. -/
  spec : ∀ decide worker recvBuf, live worker → ∃ sent next,
    svc decide worker recvBuf = some (sent, next) ∧
    held worker + weight recvBuf = chunksOf sent + held next ∧
    (recvBuf.last = false → Quiet (marksOf sent) ∧ live next) ∧
    (recvBuf.last = true → Closing (marksOf sent) ∧ held next = 0)

/-- The chunks in a send buffer. -/
def heldIn (sendBuf : Option SendBuf) : Multiset DataChunk :=
  sendBuf.elim 0 fun buf => buf.chunks

variable (wrap : ∀ buf : Ringbuffer, buf.last = false → Ringbuffer) {size : Nat}

/-- One insertion adds its chunk and sends no marked buffer. -/
theorem enqueue_spec (positive : 0 < size)
    (keeps : ∀ buf unmarked, (wrap buf unmarked).chunks = buf.chunks ∧
      (wrap buf unmarked).last = false)
    (sent : List Ringbuffer) (buf : SendBuf) (chunk : DataChunk) :
    ∃ sent' buf', enqueue wrap size positive (sent, some buf) chunk = some (sent', some buf') ∧
      chunksOf sent' + buf'.chunks = chunksOf sent + buf.chunks + {chunk} ∧
      (Quiet (marksOf sent) → Quiet (marksOf sent')) := by
  unfold enqueue
  dsimp only [Option.bind_eq_bind, Option.bind_some]
  by_cases full : (buf.insert chunk).isFull = true
  · rw [dif_pos full]
    have kept := keeps (buf.insert chunk) (SendBuf.last_insert _ _)
    refine ⟨_, _, rfl, ?_, ?_⟩
    · simp [kept.1, add_assoc]
    · intro quiet
      simp [quiet, kept.2]
  · rw [dif_neg full]
    refine ⟨_, _, rfl, ?_, fun quiet => quiet⟩
    simp [add_assoc]

/-- The insertions of a whole list. -/
theorem enqueue_all (positive : 0 < size)
    (keeps : ∀ buf unmarked, (wrap buf unmarked).chunks = buf.chunks ∧
      (wrap buf unmarked).last = false)
    (chunks : List DataChunk) (sent : List Ringbuffer) (buf : SendBuf) :
    ∃ sent' buf', chunks.foldlM (enqueue wrap size positive) (sent, some buf) =
        some (sent', some buf') ∧
      chunksOf sent' + buf'.chunks = chunksOf sent + buf.chunks + (chunks : Multiset DataChunk) ∧
      (Quiet (marksOf sent) → Quiet (marksOf sent')) := by
  induction chunks generalizing sent buf with
  | nil => exact ⟨sent, buf, rfl, by simp, fun quiet => quiet⟩
  | cons chunk chunks ih =>
    obtain ⟨sent₁, buf₁, ran₁, kept₁, quiet₁⟩ := enqueue_spec wrap positive keeps sent buf chunk
    obtain ⟨sent₂, buf₂, ran₂, kept₂, quiet₂⟩ := ih sent₁ buf₁
    refine ⟨sent₂, buf₂, ?_, ?_, fun quiet => quiet₂ (quiet₁ quiet)⟩
    · rw [List.foldlM_cons, ran₁]
      exact ran₂
    · rw [kept₂, kept₁, ← Multiset.cons_coe, ← Multiset.singleton_add]
      exact add_assoc _ _ _

/-- The service function that `FragmentRefine` and `Compress` have in common, on the chunks to be
inserted: with a buffer it keeps every chunk, and the mark closes its output. -/
theorem fill_spec (positive : 0 < size) (chunks : List DataChunk) (buf : SendBuf) :
    ∃ sent buf', chunks.foldlM (enqueue plain size positive) ([], some buf) =
        some (sent, some buf') ∧
      chunksOf sent + buf'.chunks = buf.chunks + (chunks : Multiset DataChunk) ∧
      Quiet (marksOf sent) ∧ Closing (marksOf (sent ++ [buf'.setLast buf'.notBypass])) := by
  obtain ⟨sent, buf', ran, kept, quiet⟩ := enqueue_all plain positive
    (fun _ unmarked => ⟨rfl, unmarked⟩) chunks [] buf
  have silent := quiet quiet_nil
  refine ⟨sent, buf', ran, by simpa using kept, silent, ?_⟩
  rw [marksOf_append]
  exact silent.closing_append (by simp)

/-- `FragmentRefine` as a worker; a coarse chunk stands for its fine chunks. -/
def FragmentRefine.role : Role FragmentRefine where
  svc _ := svc cfg
  start := ⟨some (.new cfg.chunkAnchorPerInsert cfg.chunkAnchorPerInsert_pos)⟩
  weight buf := (buf.data.flatMap (refine cfg) : List DataChunk)
  held worker := heldIn worker.sendBuf
  live worker := worker.sendBuf.isSome = true
  weight_mark _ := rfl
  live_start := rfl
  held_start := rfl
  spec := by
    intro _ worker recvBuf live
    obtain ⟨buf, here⟩ := Option.isSome_iff_exists.mp live
    obtain ⟨sent, buf', ran, kept, quiet, closing⟩ := fill_spec
      cfg.chunkAnchorPerInsert_pos (recvBuf.data.flatMap (refine cfg)) buf
    cases marked : recvBuf.last with
    | false =>
      refine ⟨sent, ⟨some buf'⟩, by simp [svc, here, ran, marked], ?_, ?_, by simp⟩
      · simpa [heldIn, here] using kept.symm
      · simp [quiet]
    | true =>
      refine ⟨sent ++ [buf'.setLast buf'.notBypass], ⟨none⟩, by simp [svc, here, ran, marked], ?_,
        by simp, ?_⟩
      · simpa [heldIn, here] using kept.symm
      · simpa [heldIn] using closing

/-- `Compress` as a worker. -/
def Compress.role : Role Compress where
  svc _ := svc cfg
  start := ⟨some (.new cfg.itemPerInsert cfg.itemPerInsert_pos)⟩
  weight := Ringbuffer.chunks
  held worker := heldIn worker.sendBuf
  live worker := worker.sendBuf.isSome = true
  weight_mark _ := rfl
  live_start := rfl
  held_start := rfl
  spec := by
    intro _ worker recvBuf live
    cases bypass : recvBuf.bypassCompress with
    | true =>
      have unmarked : recvBuf.last = false := by simpa [bypass] using recvBuf.exclusive
      refine ⟨[recvBuf], worker, by simp [svc, bypass], ?_, ?_, ?_⟩
      · simp [add_comm]
      · simp [unmarked, live]
      · simp [unmarked]
    | false =>
      obtain ⟨buf, here⟩ := Option.isSome_iff_exists.mp live
      obtain ⟨sent, buf', ran, kept, quiet, closing⟩ := fill_spec
        cfg.itemPerInsert_pos recvBuf.data buf
      cases marked : recvBuf.last with
      | false =>
        refine ⟨sent, ⟨some buf'⟩, by simp [svc, bypass, here, ran, marked], ?_, ?_, by simp⟩
        · simpa [heldIn, here, Ringbuffer.chunks] using kept.symm
        · simp [quiet]
      | true =>
        refine ⟨sent ++ [buf'.setLast buf'.notBypass], ⟨none⟩,
          by simp [svc, bypass, here, ran, marked], ?_, by simp, ?_⟩
        · simpa [heldIn, here, Ringbuffer.chunks] using kept.symm
        · simpa [heldIn] using closing

/-- The routing of a list of chunks keeps each of them in one of the two buffers. -/
theorem Deduplicate.route_all (entries : List (DataChunk × Bool)) (sent : List Ringbuffer)
    (bufReorder bufCompress : SendBuf) :
    ∃ sent' bufReorder' bufCompress',
      entries.foldlM (route cfg) (sent, ⟨some bufReorder, some bufCompress⟩) =
        some (sent', ⟨some bufReorder', some bufCompress'⟩) ∧
      chunksOf sent' + (bufReorder'.chunks + bufCompress'.chunks) =
        chunksOf sent + (bufReorder.chunks + bufCompress.chunks) +
          (entries.map Prod.fst : List DataChunk) ∧
      (Quiet (marksOf sent) → Quiet (marksOf sent')) := by
  induction entries generalizing sent bufReorder bufCompress with
  | nil => exact ⟨sent, bufReorder, bufCompress, rfl, by simp, fun quiet => quiet⟩
  | cons entry entries ih =>
    obtain ⟨chunk, isDuplicate⟩ := entry
    cases isDuplicate with
    | true =>
      obtain ⟨sent₁, buf₁, ran₁, kept₁, quiet₁⟩ := enqueue_spec Ringbuffer.setBypassCompress
        cfg.itemPerInsert_pos (fun _ unmarked => ⟨rfl, unmarked⟩) sent bufReorder
        chunk
      obtain ⟨sent₂, buf₂, buf₃, ran₂, kept₂, quiet₂⟩ := ih sent₁ buf₁ bufCompress
      refine ⟨sent₂, buf₂, buf₃, ?_, ?_, fun quiet => quiet₂ (quiet₁ quiet)⟩
      · rw [List.foldlM_cons]
        simp only [route, ran₁, if_true, Option.bind_eq_bind, Option.bind_some]
        exact ran₂
      · rw [kept₂, ← add_assoc, kept₁, List.map_cons, ← Multiset.cons_coe,
          ← Multiset.singleton_add]
        abel
    | false =>
      obtain ⟨sent₁, buf₁, ran₁, kept₁, quiet₁⟩ := enqueue_spec plain cfg.itemPerInsert_pos
        (fun _ unmarked => ⟨rfl, unmarked⟩) sent bufCompress chunk
      obtain ⟨sent₂, buf₂, buf₃, ran₂, kept₂, quiet₂⟩ := ih sent₁ bufReorder buf₁
      refine ⟨sent₂, buf₂, buf₃, ?_, ?_, fun quiet => quiet₂ (quiet₁ quiet)⟩
      · rw [List.foldlM_cons]
        simp only [route, ran₁, Bool.false_eq_true, if_false, Option.bind_eq_bind,
          Option.bind_some]
        exact ran₂
      · rw [kept₂, add_left_comm (chunksOf sent₁), kept₁, List.map_cons, ← Multiset.cons_coe,
          ← Multiset.singleton_add]
        abel

/-- `Deduplicate` as a worker; it takes the answers of the hash table from outside. -/
def Deduplicate.role : Role Deduplicate where
  svc := svc cfg
  start := ⟨some (.new cfg.itemPerInsert cfg.itemPerInsert_pos),
    some (.new cfg.itemPerInsert cfg.itemPerInsert_pos)⟩
  weight := Ringbuffer.chunks
  held worker := heldIn worker.sendBufReorder + heldIn worker.sendBufCompress
  live worker := worker.sendBufReorder.isSome = true ∧ worker.sendBufCompress.isSome = true
  weight_mark _ := rfl
  live_start := ⟨rfl, rfl⟩
  held_start := rfl
  spec := by
    intro isDuplicate worker recvBuf live
    obtain ⟨sendBufReorder, sendBufCompress⟩ := worker
    obtain ⟨bufReorder, rfl⟩ := Option.isSome_iff_exists.mp live.1
    obtain ⟨bufCompress, rfl⟩ := Option.isSome_iff_exists.mp live.2
    obtain ⟨sent, bufReorder', bufCompress', ran, kept, quiet⟩ := route_all cfg
      (recvBuf.data.zipIdx.map fun entry => (entry.1, isDuplicate entry.2))
        [] bufReorder bufCompress
    have silent := quiet quiet_nil
    have entries : (recvBuf.data.zipIdx.map fun entry => (entry.1, isDuplicate entry.2)).map
        Prod.fst = recvBuf.data := by
      rw [List.map_map]
      exact List.zipIdx_map_fst 0 _
    rw [entries] at kept
    cases marked : recvBuf.last with
    | false =>
      refine ⟨sent, ⟨some bufReorder', some bufCompress'⟩, by simp [svc, ran, marked], ?_, ?_,
        by simp⟩
      · simpa [heldIn, Ringbuffer.chunks] using kept.symm
      · simp [silent]
    | true =>
      refine ⟨sent ++ [bufReorder'.setBypassCompress bufReorder'.notLast,
        bufCompress'.setLast bufCompress'.notBypass], ⟨none, none⟩, by simp [svc, ran, marked], ?_,
        by simp, ?_⟩
      · simpa [heldIn, Ringbuffer.chunks] using kept.symm
      · intro _
        rw [marksOf_append]
        exact ⟨silent.closing_append (by simp), rfl⟩

end P3arsec.Dedup
