import P3arsec.Dedup.Queue
import P3arsec.Dedup.Reorder
import P3arsec.Lib.Run

/-!
# The pipeline of threads

`Fragment` puts the coarse chunks into the refine queues in turn. The threads of the three stages
in the middle work alike: each one takes chunks from the input queue of its lane, makes something
of them and puts the result into send buffers, which go into the output queues when they are full
and at the end. `Deduplicate` has two output queues, of which only the one to `Compress` counts it
as a producer. `Reorder` takes chunks from the queues of all lanes in turn, and waits for the
compression of a chunk before it writes it or a duplicate of it.

A chunk is known by its sequence number. What a thread does next is a function of the state; a
thread without a next step is finished or waits. The array `chunks_per_anchor` has no bounds here.
-/

namespace P3arsec.Dedup.Pthreads

open P3arsec.Lib

/-- The stages with many threads. -/
inductive Stage where
  /-- `FragmentRefine`. -/
  | fragmentRefine
  /-- `Deduplicate`. -/
  | deduplicate
  /-- `Compress`. -/
  | compress
  deriving DecidableEq, Repr

/-- The arrays of queues. -/
inductive Que where
  /-- `refine_que`. -/
  | refine
  /-- `deduplicate_que`. -/
  | deduplicate
  /-- `compress_que`. -/
  | compress
  /-- `reorder_que`. -/
  | reorder
  deriving DecidableEq, Repr

/-- The send buffers of a thread. -/
inductive Port where
  /-- `send_buf`, or `send_buf_compress` of `Deduplicate`. -/
  | main
  /-- `send_buf_reorder` of `Deduplicate`. -/
  | bypass
  deriving DecidableEq, Repr

/-- The queues that a stage takes chunks from. -/
def Stage.input : Stage → Que
  | .fragmentRefine => .refine
  | .deduplicate => .deduplicate
  | .compress => .compress

/-- The queues that a stage puts its send buffers into. Only `Deduplicate` uses the second one. -/
def Stage.output : Stage → Port → Que
  | .fragmentRefine, _ => .deduplicate
  | .deduplicate, .main => .compress
  | .deduplicate, .bypass => .reorder
  | .compress, _ => .reorder

/-- The threads and the sizes of the queues and buffers. -/
structure Setup where
  /-- The number of threads of each stage in the middle. -/
  nthreads : Nat
  /-- The number of queues between two stages. -/
  nqueues : Nat
  /-- The queue that a thread works on. -/
  qid : Nat → Nat
  /-- The number of threads that work on a queue. -/
  threadsPerQueue : Nat → Nat
  /-- `QUEUE_SIZE`. -/
  queueSize : Nat
  /-- `ANCHOR_DATA_PER_INSERT`. -/
  anchorDataPerInsert : Nat
  /-- `MAX_PER_FETCH`. -/
  maxPerFetch : Nat
  /-- `CHUNK_ANCHOR_PER_INSERT`. -/
  chunkAnchorPerInsert : Nat
  /-- `CHUNK_ANCHOR_PER_FETCH`. -/
  chunkAnchorPerFetch : Nat
  /-- `ITEM_PER_FETCH`. -/
  itemPerFetch : Nat
  /-- `ITEM_PER_INSERT`. -/
  itemPerInsert : Nat
  /-- The threads work on the queues. -/
  known : ∀ t < nthreads, qid t < nqueues
  /-- Every queue has a thread. -/
  manned : ∀ q < nqueues, ∃ t < nthreads, qid t = q
  /-- The number of threads of a queue is right. -/
  counted : ∀ q < nqueues,
    threadsPerQueue q = ((Finset.range nthreads).filter fun t => qid t = q).card
  /-- There is a queue. -/
  nqueues_pos : 0 < nqueues
  /-- A queue has room. -/
  queueSize_pos : 0 < queueSize
  /-- A buffer of coarse chunks has room. -/
  anchorDataPerInsert_pos : 0 < anchorDataPerInsert
  /-- Coarse chunks are fetched. -/
  maxPerFetch_pos : 0 < maxPerFetch
  /-- A buffer of refined chunks has room. -/
  chunkAnchorPerInsert_pos : 0 < chunkAnchorPerInsert
  /-- Refined chunks are fetched. -/
  chunkAnchorPerFetch_pos : 0 < chunkAnchorPerFetch
  /-- Chunks are fetched. -/
  itemPerFetch_pos : 0 < itemPerFetch
  /-- A buffer of chunks has room. -/
  itemPerInsert_pos : 0 < itemPerInsert

namespace Setup

variable (setup : Setup)

/-- The limit of the calls of `queue_dequeue` of a stage. -/
def fetch : Stage → Nat
  | .fragmentRefine => setup.maxPerFetch
  | .deduplicate => setup.chunkAnchorPerFetch
  | .compress => setup.itemPerFetch

/-- The size of the send buffers of a stage. -/
def insert : Stage → Nat
  | .fragmentRefine => setup.chunkAnchorPerInsert
  | .deduplicate => setup.itemPerInsert
  | .compress => setup.itemPerInsert

/-- The producers that a queue counts. -/
def nProducers : Que → Nat → Nat
  | .refine, _ => 1
  | _, q => setup.threadsPerQueue q

/-- `MAX_THREADS_PER_QUEUE`. -/
def maxThreadsPerQueue : Nat := 4

/-- The threads and queues that `Encode` sets up, where `ITEM_PER_FETCH` and all sizes defined
like it are `grain`. -/
def encode (nthreads queueSize grain : Nat) (threads : 0 < nthreads) (room : 0 < queueSize)
    (batch : 0 < grain) : Setup where
  nthreads := nthreads
  nqueues := nthreads / maxThreadsPerQueue + if nthreads % maxThreadsPerQueue ≠ 0 then 1 else 0
  qid tid := tid / maxThreadsPerQueue
  threadsPerQueue i :=
    if i < nthreads / maxThreadsPerQueue + (if nthreads % maxThreadsPerQueue ≠ 0 then 1 else 0) - 1
        ∨ nthreads % maxThreadsPerQueue = 0 then maxThreadsPerQueue
    else nthreads % maxThreadsPerQueue
  queueSize := queueSize
  anchorDataPerInsert := 1
  maxPerFetch := 10000
  chunkAnchorPerInsert := grain
  chunkAnchorPerFetch := grain
  itemPerFetch := grain
  itemPerInsert := grain
  known t inside := by
    unfold maxThreadsPerQueue
    split_ifs <;> omega
  manned q inside := by
    unfold maxThreadsPerQueue at inside ⊢
    refine ⟨4 * q, ?_, by omega⟩
    split_ifs at inside <;> omega
  counted q inside := by
    have block : ((Finset.range nthreads).filter fun t => t / maxThreadsPerQueue = q) =
        Finset.Ico (4 * q) (min (4 * q + 4) nthreads) := by
      ext t
      rw [Finset.mem_filter, Finset.mem_range, Finset.mem_Ico, maxThreadsPerQueue]
      omega
    rw [block, Nat.card_Ico]
    unfold maxThreadsPerQueue at inside ⊢
    split_ifs at inside ⊢ <;> omega
  nqueues_pos := by
    unfold maxThreadsPerQueue
    split_ifs <;> omega
  queueSize_pos := room
  anchorDataPerInsert_pos := Nat.one_pos
  maxPerFetch_pos := by omega
  chunkAnchorPerInsert_pos := batch
  chunkAnchorPerFetch_pos := batch
  itemPerFetch_pos := batch
  itemPerInsert_pos := batch

end Setup

/-- The input: how many fine chunks each coarse chunk is refined into, and their keys. -/
structure Input (κ : Type) where
  /-- The numbers of fine chunks. -/
  anchors : List Nat
  /-- The SHA1 sum of a fine chunk. -/
  sha1 : Sequence → κ

/-- Whether a thread is in its loop or behind it. -/
inductive Phase where
  /-- In the loop. -/
  | loop
  /-- Behind the loop. -/
  | drain
  /-- Finished. -/
  | finished
  deriving DecidableEq, Repr

/-- `Fragment`. -/
structure Fragmenter where
  /-- The coarse chunks that have not been cut. -/
  todo : List Sequence
  /-- `send_buf`. -/
  sendBuf : List Sequence
  /-- `qid`. -/
  qid : Nat
  /-- It is in a call of `queue_enqueue`. -/
  enqueues : Bool
  /-- The number of calls of `queue_terminate`. -/
  terminated : Nat
  deriving DecidableEq, Repr

/-- A thread of a stage in the middle. -/
structure Worker where
  /-- `recv_buf`. -/
  recvBuf : List Sequence
  /-- What it still has to insert into its send buffers. -/
  todo : List (Port × Sequence)
  /-- The send buffers. -/
  sendBuf : Port → List Sequence
  /-- The send buffer with which it is in a call of `queue_enqueue`. -/
  enqueues : Option Port
  /-- Where it is. -/
  phase : Phase

/-- `Reorder`. -/
structure Reorderer where
  /-- `recv_buf`. -/
  recvBuf : List Sequence
  /-- `qid`. -/
  qid : Nat
  /-- The number of queues tried in the loop over the queues. -/
  tried : Nat
  /-- The next sequence number. -/
  next : Sequence
  /-- `chunks_per_anchor`. -/
  chunksPerAnchor : Nat → Nat
  /-- The chunks in the search tree of heaps, in order. -/
  tree : List Sequence
  /-- The chunk that it is writing. -/
  writing : Option Sequence
  /-- The chunks written. -/
  written : List Sequence
  /-- Where it is. -/
  phase : Phase

/-- The threads and what they share. -/
structure Pipeline (κ : Type) where
  /-- `Fragment`. -/
  fragment : Fragmenter
  /-- The threads of the stages in the middle. -/
  workers : Stage → Nat → Worker
  /-- The queues. -/
  queues : Que → Nat → Queue Sequence
  /-- The hash table of the originals. -/
  cache : κ → Option Sequence
  /-- `compressed_data_ref`, none for an original. -/
  compressedDataRef : Sequence → Option Sequence
  /-- The state is not `CHUNK_STATE_UNCOMPRESSED`. -/
  compressed : Sequence → Bool
  /-- `Reorder`. -/
  reorder : Reorderer

namespace Pipeline

variable {κ : Type} [DecidableEq κ] (setup : Setup) (input : Input κ)

/-- The pipeline with one worker changed. -/
def setWorker (pipe : Pipeline κ) (stage : Stage) (t : Nat) (worker : Worker) : Pipeline κ :=
  { pipe with workers := fun stage' t' =>
      if stage' = stage ∧ t' = t then worker else pipe.workers stage' t' }

/-- The pipeline with one queue changed. -/
def setQueue (pipe : Pipeline κ) (que : Que) (q : Nat) (queue : Queue Sequence) : Pipeline κ :=
  { pipe with queues := fun que' q' => if que' = que ∧ q' = q then queue else pipe.queues que' q' }

/-- The pipeline at the start. -/
def start : Pipeline κ where
  fragment := ⟨(List.range input.anchors.length).map fun l1num => ⟨l1num, 0⟩, [], 0, false, 0⟩
  workers _ _ := ⟨[], [], fun _ => [], none, .loop⟩
  queues que q := .init (setup.nProducers que q)
  cache _ := none
  compressedDataRef _ := none
  compressed _ := false
  reorder := ⟨[], 0, 0, .reset, fun _ => 0, [], none, [], .loop⟩

/-- The next step of `Fragment`. -/
def stepFragment (pipe : Pipeline κ) : Option (Pipeline κ) :=
  let fragment := pipe.fragment
  if fragment.enqueues then
    let queue := pipe.queues .refine fragment.qid
    if queue.isFull setup.queueSize then none
    else
      let (sendBuf, queue) :=
        queue.enqueue setup.queueSize setup.anchorDataPerInsert fragment.sendBuf
      some { pipe.setQueue .refine fragment.qid queue with fragment := { fragment with
        sendBuf := sendBuf, qid := (fragment.qid + 1) % setup.nqueues, enqueues := false } }
  else match fragment.todo with
    | chunk :: todo =>
      let sendBuf := fragment.sendBuf ++ [chunk]
      -- the last chunk is inserted without a test for a full buffer
      some { pipe with fragment := { fragment with
        todo := todo, sendBuf := sendBuf
        enqueues := !todo.isEmpty && sendBuf.length == setup.anchorDataPerInsert } }
    | [] =>
      if !fragment.sendBuf.isEmpty then
        some { pipe with fragment := { fragment with enqueues := true } }
      else if fragment.terminated < setup.nqueues then
        some { pipe.setQueue .refine fragment.terminated
            (pipe.queues .refine fragment.terminated).terminate with
          fragment := { fragment with terminated := fragment.terminated + 1 } }
      else none

/-- What a stage makes of a chunk: what is to be inserted into the send buffers, and the changes
of the shared state. -/
def process (stage : Stage) (chunk : Sequence) (pipe : Pipeline κ) :
    List (Port × Sequence) × Pipeline κ :=
  match stage with
  | .fragmentRefine => ((List.range (total input.anchors chunk.l1num)).map fun l2num =>
      (.main, ⟨chunk.l1num, l2num⟩), pipe)
  | .deduplicate =>
    match pipe.cache (input.sha1 chunk) with
    | none => ([(.main, chunk)],
        { pipe with cache := Function.update pipe.cache (input.sha1 chunk) (some chunk) })
    | some entry => ([(.bypass, chunk)], { pipe with
        compressedDataRef := Function.update pipe.compressedDataRef chunk (some entry) })
  | .compress => ([(.main, chunk)],
      { pipe with compressed := Function.update pipe.compressed chunk true })

/-- The next step of a thread. -/
def stepWorker (stage : Stage) (t : Nat) (pipe : Pipeline κ) : Option (Pipeline κ) :=
  let worker := pipe.workers stage t
  let q := setup.qid t
  if setup.nthreads ≤ t then none
  else match worker.enqueues with
  | some port =>
    let queue := pipe.queues (stage.output port) q
    if queue.isFull setup.queueSize then none
    else
      let (sendBuf, queue) :=
        queue.enqueue setup.queueSize (setup.insert stage) (worker.sendBuf port)
      some ((pipe.setQueue (stage.output port) q queue).setWorker stage t { worker with
        sendBuf := Function.update worker.sendBuf port sendBuf, enqueues := none })
  | none =>
    match worker.phase with
    | .loop =>
      match worker.todo with
      | (port, chunk) :: todo =>
        let sendBuf := worker.sendBuf port ++ [chunk]
        some (pipe.setWorker stage t { worker with
          todo := todo
          sendBuf := Function.update worker.sendBuf port sendBuf
          enqueues := if sendBuf.length = setup.insert stage then some port else none })
      | [] =>
        match worker.recvBuf with
        | chunk :: recvBuf =>
          let (todo, pipe) := process input stage chunk pipe
          some (pipe.setWorker stage t { worker with recvBuf := recvBuf, todo := todo })
        | [] =>
          let queue := pipe.queues stage.input q
          if queue.isEmpty then
            if queue.isTerminated then
              some (pipe.setWorker stage t { worker with phase := .drain })
            else none
          else
            let (recvBuf, queue) := queue.dequeue (setup.fetch stage)
            some ((pipe.setQueue stage.input q queue).setWorker stage t { worker with
              recvBuf := recvBuf })
    | .drain =>
      if !(worker.sendBuf .main).isEmpty then
        some (pipe.setWorker stage t { worker with enqueues := some .main })
      else if !(worker.sendBuf .bypass).isEmpty then
        some (pipe.setWorker stage t { worker with enqueues := some .bypass })
      else
        some ((pipe.setQueue (stage.output .main) q
          (pipe.queues (stage.output .main) q).terminate).setWorker stage t { worker with
            phase := .finished })
    | .finished => none

/-- Put a chunk into the tree. -/
def insertTree (chunk : Sequence) : List Sequence → List Sequence
  | [] => [chunk]
  | other :: tree =>
    if other.l1num < chunk.l1num ∨ other.l1num = chunk.l1num ∧ other.l2num ≤ chunk.l2num then
      other :: insertTree chunk tree
    else chunk :: other :: tree

/-- The chunk whose data is written for a chunk. -/
def original (pipe : Pipeline κ) (chunk : Sequence) : Sequence :=
  (pipe.compressedDataRef chunk).getD chunk

/-- `Reorder` after it has written a chunk: the next sequence number, and in the loop the next
chunk from the tree if it is the next one. -/
def wrote (chunk : Sequence) (reorder : Reorderer) : Reorderer :=
  let inc := reorder.next.incL2
  let next := if reorder.chunksPerAnchor inc.l1num ≠ 0 ∧
      inc.l2num = reorder.chunksPerAnchor inc.l1num then inc.incL1 else inc
  let reorder := { reorder with next := next, written := reorder.written ++ [chunk] }
  match reorder.phase, reorder.tree with
  | .loop, other :: tree =>
    if other = next then { reorder with writing := some other, tree := tree }
    else { reorder with writing := none }
  | _, _ => { reorder with writing := none }

/-- `Reorder` after it has taken a chunk from its receive buffer. -/
def received (chunk : Sequence) (recvBuf : List Sequence) (reorder : Reorderer) : Reorderer :=
  let reorder := { reorder with
    recvBuf := recvBuf
    chunksPerAnchor :=
      if chunk.l2num + 1 = total input.anchors chunk.l1num then
        Function.update reorder.chunksPerAnchor chunk.l1num (chunk.l2num + 1)
      else reorder.chunksPerAnchor }
  if chunk = reorder.next then { reorder with writing := some chunk }
  else { reorder with tree := insertTree chunk reorder.tree }

/-- The next step of `Reorder`. -/
def stepReorder (pipe : Pipeline κ) : Option (Pipeline κ) :=
  let reorder := pipe.reorder
  match reorder.writing with
  | some chunk =>
    if pipe.compressed (pipe.original chunk) then
      some { pipe with reorder := wrote chunk reorder }
    else none
  | none =>
    match reorder.phase with
    | .loop =>
      match reorder.recvBuf with
      | chunk :: recvBuf => some { pipe with reorder := received input chunk recvBuf reorder }
      | [] =>
        let queue := pipe.queues .reorder reorder.qid
        let qid := (reorder.qid + 1) % setup.nqueues
        if queue.isEmpty then
          if queue.isTerminated then
            some { pipe with reorder := { reorder with
              qid := qid, tried := reorder.tried + 1
              phase := if reorder.tried + 1 = setup.nqueues then .drain else .loop } }
          else none
        else
          let (recvBuf, queue) := queue.dequeue setup.itemPerFetch
          some { pipe.setQueue .reorder reorder.qid queue with reorder := { reorder with
            recvBuf := recvBuf, qid := qid, tried := 0 } }
    | .drain =>
      match reorder.tree with
      | [] => some { pipe with reorder := { reorder with phase := .finished } }
      | chunk :: tree =>
        if chunk = reorder.next then
          some { pipe with reorder := { reorder with writing := some chunk, tree := tree } }
        -- a sequence number mismatch exits
        else some { pipe with reorder := { reorder with phase := .finished } }
    | .finished => none

/-- The thread that takes a step. -/
inductive Action where
  /-- `Fragment`. -/
  | fragment
  /-- A thread of a stage in the middle. -/
  | worker (stage : Stage) (t : Nat)
  /-- `Reorder`. -/
  | reorder
  deriving DecidableEq, Repr

/-- One step of a thread. -/
def act (pipe : Pipeline κ) : Action → Option (Pipeline κ)
  | .fragment => stepFragment setup pipe
  | .worker stage t => stepWorker setup input stage t pipe
  | .reorder => stepReorder setup input pipe

/-- The steps of the threads in an order. -/
def acts (pipe : Pipeline κ) : List Action → Option (Pipeline κ)
  | [] => some pipe
  | action :: actions => (act setup input pipe action).bind fun next => acts next actions

/-- The states of all interleavings. -/
def Reached : Pipeline κ → Prop :=
  Reachable (· = start setup input) fun pipe next =>
    ∃ action, act setup input pipe action = some next

/-- All threads have finished. -/
def Finished (pipe : Pipeline κ) : Prop :=
  (pipe.fragment.todo = [] ∧ pipe.fragment.sendBuf = [] ∧ pipe.fragment.enqueues = false ∧
    pipe.fragment.terminated = setup.nqueues) ∧
  (∀ stage, ∀ t < setup.nthreads, (pipe.workers stage t).phase = .finished) ∧
  pipe.reorder.phase = .finished

variable {setup input} {pipe next : Pipeline κ} {stage : Stage} {t : Nat}

/-- The kinds of steps of a thread of a stage in the middle. -/
inductive WorkerStep (setup : Setup) (input : Input κ) (stage : Stage) (t : Nat)
    (pipe : Pipeline κ) : Pipeline κ → Prop where
  /-- A call of `queue_enqueue` returns. -/
  | enqueue (port : Port) (busy : (pipe.workers stage t).enqueues = some port)
      (room : (pipe.queues (stage.output port) (setup.qid t)).isFull setup.queueSize = false) :
      WorkerStep setup input stage t pipe ((pipe.setQueue (stage.output port) (setup.qid t)
        ((pipe.queues (stage.output port) (setup.qid t)).enqueue setup.queueSize
          (setup.insert stage) ((pipe.workers stage t).sendBuf port)).2).setWorker stage t
        { pipe.workers stage t with
          sendBuf := Function.update (pipe.workers stage t).sendBuf port
            ((pipe.queues (stage.output port) (setup.qid t)).enqueue setup.queueSize
              (setup.insert stage) ((pipe.workers stage t).sendBuf port)).1
          enqueues := none })
  /-- A chunk is inserted into a send buffer. -/
  | insert (port : Port) (chunk : Sequence) (todo : List (Port × Sequence))
      (idle : (pipe.workers stage t).enqueues = none) (phase : (pipe.workers stage t).phase = .loop)
      (more : (pipe.workers stage t).todo = (port, chunk) :: todo) :
      WorkerStep setup input stage t pipe (pipe.setWorker stage t { pipe.workers stage t with
        todo := todo
        sendBuf := Function.update (pipe.workers stage t).sendBuf port
          ((pipe.workers stage t).sendBuf port ++ [chunk])
        enqueues := if ((pipe.workers stage t).sendBuf port ++ [chunk]).length =
          setup.insert stage then some port else none })
  /-- A chunk is taken from the receive buffer and processed. -/
  | process (chunk : Sequence) (recvBuf : List Sequence)
      (idle : (pipe.workers stage t).enqueues = none) (phase : (pipe.workers stage t).phase = .loop)
      (done : (pipe.workers stage t).todo = [])
      (received : (pipe.workers stage t).recvBuf = chunk :: recvBuf) :
      WorkerStep setup input stage t pipe ((pipe.process input stage chunk).2.setWorker stage t
        { pipe.workers stage t with
          recvBuf := recvBuf, todo := (pipe.process input stage chunk).1 })
  /-- A call of `queue_dequeue` returns with chunks. -/
  | dequeue (idle : (pipe.workers stage t).enqueues = none)
      (phase : (pipe.workers stage t).phase = .loop) (done : (pipe.workers stage t).todo = [])
      (received : (pipe.workers stage t).recvBuf = [])
      (some : (pipe.queues stage.input (setup.qid t)).isEmpty = false) :
      WorkerStep setup input stage t pipe ((pipe.setQueue stage.input (setup.qid t)
        ((pipe.queues stage.input (setup.qid t)).dequeue (setup.fetch stage)).2).setWorker stage t
        { pipe.workers stage t with
          recvBuf := ((pipe.queues stage.input (setup.qid t)).dequeue (setup.fetch stage)).1 })
  /-- A call of `queue_dequeue` returns without chunks. -/
  | leave (idle : (pipe.workers stage t).enqueues = none)
      (phase : (pipe.workers stage t).phase = .loop) (done : (pipe.workers stage t).todo = [])
      (received : (pipe.workers stage t).recvBuf = [])
      (ended : (pipe.queues stage.input (setup.qid t)).Ended) :
      WorkerStep setup input stage t pipe (pipe.setWorker stage t
        { pipe.workers stage t with phase := .drain })
  /-- A send buffer that is not empty is flushed. -/
  | flush (port : Port) (idle : (pipe.workers stage t).enqueues = none)
      (phase : (pipe.workers stage t).phase = .drain)
      (rest : (pipe.workers stage t).sendBuf port ≠ []) :
      WorkerStep setup input stage t pipe (pipe.setWorker stage t
        { pipe.workers stage t with enqueues := some port })
  /-- The thread announces that it has terminated. -/
  | terminate (idle : (pipe.workers stage t).enqueues = none)
      (phase : (pipe.workers stage t).phase = .drain)
      (flushed : ∀ port, (pipe.workers stage t).sendBuf port = []) :
      WorkerStep setup input stage t pipe ((pipe.setQueue (stage.output .main) (setup.qid t)
        (pipe.queues (stage.output .main) (setup.qid t)).terminate).setWorker stage t
        { pipe.workers stage t with phase := .finished })

/-- Why a thread of a stage in the middle has no step. -/
inductive WorkerStops (setup : Setup) (stage : Stage) (t : Nat) (pipe : Pipeline κ) : Prop where
  /-- It waits for room in a queue. -/
  | full (port : Port) (busy : (pipe.workers stage t).enqueues = some port)
      (full : (pipe.queues (stage.output port) (setup.qid t)).isFull setup.queueSize = true)
  /-- It waits for chunks in a queue. -/
  | empty (idle : (pipe.workers stage t).enqueues = none)
      (phase : (pipe.workers stage t).phase = .loop) (done : (pipe.workers stage t).todo = [])
      (received : (pipe.workers stage t).recvBuf = [])
      (empty : (pipe.queues stage.input (setup.qid t)).isEmpty = true)
      (runs : (pipe.queues stage.input (setup.qid t)).isTerminated = false)
  /-- It has finished. -/
  | finished (idle : (pipe.workers stage t).enqueues = none)
      (phase : (pipe.workers stage t).phase = .finished)

/-- A thread takes one of the steps or has a reason to have none. -/
theorem stepWorker_cases (input : Input κ) (pipe : Pipeline κ) (stage : Stage)
    (inside : t < setup.nthreads) :
    (∃ next, stepWorker setup input stage t pipe = some next ∧
      WorkerStep setup input stage t pipe next) ∨
    (stepWorker setup input stage t pipe = none ∧ WorkerStops setup stage t pipe) := by
  have here : ¬setup.nthreads ≤ t := by omega
  cases busy : (pipe.workers stage t).enqueues with
  | some port =>
    cases full : (pipe.queues (stage.output port) (setup.qid t)).isFull setup.queueSize with
    | true => exact .inr ⟨by simp [stepWorker, here, busy, full], .full port busy full⟩
    | false =>
      exact .inl ⟨_, by simp [stepWorker, here, busy, full], .enqueue port busy full⟩
  | none =>
    cases phase : (pipe.workers stage t).phase with
    | loop =>
      cases more : (pipe.workers stage t).todo with
      | cons entry todo =>
        obtain ⟨port, chunk⟩ := entry
        exact .inl ⟨_, by simp [stepWorker, here, busy, phase, more],
          .insert port chunk todo busy phase more⟩
      | nil =>
        cases received : (pipe.workers stage t).recvBuf with
        | cons chunk recvBuf =>
          exact .inl ⟨_, by simp [stepWorker, here, busy, phase, more, received],
            .process chunk recvBuf busy phase more received⟩
        | nil =>
          cases empty : (pipe.queues stage.input (setup.qid t)).isEmpty with
          | false =>
            exact .inl ⟨_, by simp [stepWorker, here, busy, phase, more, received, empty],
              .dequeue busy phase more received empty⟩
          | true =>
            cases ended : (pipe.queues stage.input (setup.qid t)).isTerminated with
            | false =>
              exact .inr ⟨by simp [stepWorker, here, busy, phase, more, received, empty, ended],
                .empty busy phase more received empty ended⟩
            | true =>
              exact .inl ⟨_, by simp [stepWorker, here, busy, phase, more, received, empty, ended],
                .leave busy phase more received ⟨ended, List.isEmpty_iff.mp empty⟩⟩
    | drain =>
      cases main : ((pipe.workers stage t).sendBuf .main).isEmpty with
      | false =>
        exact .inl ⟨_, by simp [stepWorker, here, busy, phase, main],
          .flush .main busy phase (by simpa using main)⟩
      | true =>
        cases bypass : ((pipe.workers stage t).sendBuf .bypass).isEmpty with
        | false =>
          exact .inl ⟨_, by simp [stepWorker, here, busy, phase, main, bypass],
            .flush .bypass busy phase (by simpa using bypass)⟩
        | true =>
          refine .inl ⟨_, by simp [stepWorker, here, busy, phase, main, bypass],
            .terminate busy phase fun port => ?_⟩
          cases port with
          | main => exact List.isEmpty_iff.mp main
          | bypass => exact List.isEmpty_iff.mp bypass
    | finished =>
      exact .inr ⟨by simp [stepWorker, here, busy, phase], .finished busy phase⟩

/-- A step of a thread of a stage in the middle is one of these. -/
theorem workerStep_of_step (moves : stepWorker setup input stage t pipe = some next) :
    t < setup.nthreads ∧ WorkerStep setup input stage t pipe next := by
  have inside : t < setup.nthreads := by
    by_contra outside
    unfold stepWorker at moves
    simp only [if_pos (Nat.le_of_not_lt outside)] at moves
    cases moves
  rcases stepWorker_cases input pipe stage inside with ⟨other, same, step⟩ | ⟨none, -⟩
  · rw [moves] at same
    obtain rfl := Option.some.inj same
    exact ⟨inside, step⟩
  · rw [moves] at none
    cases none

/-- The kinds of steps of `Fragment`. -/
inductive FragmentStep (setup : Setup) (pipe : Pipeline κ) : Pipeline κ → Prop where
  /-- A call of `queue_enqueue` returns. -/
  | enqueue (busy : pipe.fragment.enqueues = true)
      (room : (pipe.queues .refine pipe.fragment.qid).isFull setup.queueSize = false) :
      FragmentStep setup pipe { pipe.setQueue .refine pipe.fragment.qid
          ((pipe.queues .refine pipe.fragment.qid).enqueue setup.queueSize
            setup.anchorDataPerInsert pipe.fragment.sendBuf).2 with
        fragment := { pipe.fragment with
          sendBuf := ((pipe.queues .refine pipe.fragment.qid).enqueue setup.queueSize
            setup.anchorDataPerInsert pipe.fragment.sendBuf).1
          qid := (pipe.fragment.qid + 1) % setup.nqueues
          enqueues := false } }
  /-- A chunk is inserted into the send buffer. -/
  | insert (chunk : Sequence) (todo : List Sequence) (idle : pipe.fragment.enqueues = false)
      (more : pipe.fragment.todo = chunk :: todo) :
      FragmentStep setup pipe { pipe with fragment := { pipe.fragment with
        todo := todo
        sendBuf := pipe.fragment.sendBuf ++ [chunk]
        enqueues := !todo.isEmpty &&
          (pipe.fragment.sendBuf ++ [chunk]).length == setup.anchorDataPerInsert } }
  /-- The send buffer is flushed. -/
  | flush (idle : pipe.fragment.enqueues = false) (done : pipe.fragment.todo = [])
      (rest : pipe.fragment.sendBuf ≠ []) :
      FragmentStep setup pipe { pipe with fragment := { pipe.fragment with enqueues := true } }
  /-- The thread announces to a queue that it has terminated. -/
  | terminate (idle : pipe.fragment.enqueues = false) (done : pipe.fragment.todo = [])
      (flushed : pipe.fragment.sendBuf = []) (more : pipe.fragment.terminated < setup.nqueues) :
      FragmentStep setup pipe { pipe.setQueue .refine pipe.fragment.terminated
          (pipe.queues .refine pipe.fragment.terminated).terminate with
        fragment := { pipe.fragment with terminated := pipe.fragment.terminated + 1 } }

omit [DecidableEq κ] in
/-- `Fragment` takes one of the steps, or it waits for room or has finished. -/
theorem stepFragment_cases (setup : Setup) (pipe : Pipeline κ) :
    (∃ next, stepFragment setup pipe = some next ∧ FragmentStep setup pipe next) ∨
    (stepFragment setup pipe = none ∧
      (pipe.fragment.enqueues = true ∧
        (pipe.queues .refine pipe.fragment.qid).isFull setup.queueSize = true ∨
      pipe.fragment.enqueues = false ∧ pipe.fragment.todo = [] ∧ pipe.fragment.sendBuf = [] ∧
        setup.nqueues ≤ pipe.fragment.terminated)) := by
  cases busy : pipe.fragment.enqueues with
  | true =>
    cases full : (pipe.queues .refine pipe.fragment.qid).isFull setup.queueSize with
    | true => exact .inr ⟨by simp [stepFragment, busy, full], .inl ⟨rfl, rfl⟩⟩
    | false => exact .inl ⟨_, by simp [stepFragment, busy, full], .enqueue busy full⟩
  | false =>
    cases more : pipe.fragment.todo with
    | cons chunk todo =>
      exact .inl ⟨_, by simp [stepFragment, busy, more], .insert chunk todo busy more⟩
    | nil =>
      by_cases flushed : pipe.fragment.sendBuf = []
      · by_cases left : pipe.fragment.terminated < setup.nqueues
        · exact .inl ⟨_, by simp [stepFragment, busy, more, flushed, left],
            .terminate busy more flushed left⟩
        · exact .inr ⟨by simp [stepFragment, busy, more, flushed, left],
            .inr ⟨rfl, rfl, flushed, Nat.le_of_not_lt left⟩⟩
      · exact .inl ⟨_, by simp [stepFragment, busy, more, flushed], .flush busy more flushed⟩

/-- The kinds of steps of `Reorder`. -/
inductive ReorderStep (setup : Setup) (input : Input κ) (pipe : Pipeline κ) :
    Pipeline κ → Prop where
  /-- A chunk is written. -/
  | write (chunk : Sequence) (busy : pipe.reorder.writing = some chunk)
      (ready : pipe.compressed (pipe.original chunk) = true) :
      ReorderStep setup input pipe { pipe with reorder := wrote chunk pipe.reorder }
  /-- A chunk is taken from the receive buffer. -/
  | receive (chunk : Sequence) (recvBuf : List Sequence) (idle : pipe.reorder.writing = none)
      (phase : pipe.reorder.phase = .loop) (got : pipe.reorder.recvBuf = chunk :: recvBuf) :
      ReorderStep setup input pipe
        { pipe with reorder := received input chunk recvBuf pipe.reorder }
  /-- A queue is found terminated and empty. -/
  | skip (idle : pipe.reorder.writing = none) (phase : pipe.reorder.phase = .loop)
      (got : pipe.reorder.recvBuf = [])
      (ended : (pipe.queues .reorder pipe.reorder.qid).Ended) :
      ReorderStep setup input pipe { pipe with reorder := { pipe.reorder with
        qid := (pipe.reorder.qid + 1) % setup.nqueues
        tried := pipe.reorder.tried + 1
        phase := if pipe.reorder.tried + 1 = setup.nqueues then .drain else .loop } }
  /-- Chunks are taken from a queue. -/
  | dequeue (idle : pipe.reorder.writing = none) (phase : pipe.reorder.phase = .loop)
      (got : pipe.reorder.recvBuf = [])
      (some : (pipe.queues .reorder pipe.reorder.qid).isEmpty = false) :
      ReorderStep setup input pipe { pipe.setQueue .reorder pipe.reorder.qid
          ((pipe.queues .reorder pipe.reorder.qid).dequeue setup.itemPerFetch).2 with
        reorder := { pipe.reorder with
          recvBuf := ((pipe.queues .reorder pipe.reorder.qid).dequeue setup.itemPerFetch).1
          qid := (pipe.reorder.qid + 1) % setup.nqueues
          tried := 0 } }
  /-- A chunk is taken from the tree at the end. -/
  | take (chunk : Sequence) (tree : List Sequence) (idle : pipe.reorder.writing = none)
      (phase : pipe.reorder.phase = .drain) (left : pipe.reorder.tree = chunk :: tree) :
      ReorderStep setup input pipe { pipe with reorder := { pipe.reorder with
        writing := some chunk, tree := tree } }
  /-- The thread finishes. -/
  | finish (idle : pipe.reorder.writing = none) (phase : pipe.reorder.phase = .drain) :
      ReorderStep setup input pipe { pipe with reorder := { pipe.reorder with phase := .finished } }

/-- Why `Reorder` has no step. -/
inductive ReorderStops (pipe : Pipeline κ) : Prop where
  /-- It waits for the compression of a chunk. -/
  | uncompressed (chunk : Sequence) (busy : pipe.reorder.writing = some chunk)
      (waits : pipe.compressed (pipe.original chunk) = false)
  /-- It waits for chunks in a queue. -/
  | empty (idle : pipe.reorder.writing = none) (phase : pipe.reorder.phase = .loop)
      (got : pipe.reorder.recvBuf = [])
      (empty : (pipe.queues .reorder pipe.reorder.qid).isEmpty = true)
      (runs : (pipe.queues .reorder pipe.reorder.qid).isTerminated = false)
  /-- It has finished. -/
  | finished (phase : pipe.reorder.phase = .finished)

omit [DecidableEq κ] in
/-- `Reorder` takes one of the steps or has a reason to have none. -/
theorem stepReorder_cases (setup : Setup) (input : Input κ) (pipe : Pipeline κ) :
    (∃ next, stepReorder setup input pipe = some next ∧ ReorderStep setup input pipe next) ∨
    (stepReorder setup input pipe = none ∧ ReorderStops pipe) := by
  cases busy : pipe.reorder.writing with
  | some chunk =>
    cases ready : pipe.compressed (pipe.original chunk) with
    | true => exact .inl ⟨_, by simp [stepReorder, busy, ready], .write chunk busy ready⟩
    | false => exact .inr ⟨by simp [stepReorder, busy, ready], .uncompressed chunk busy ready⟩
  | none =>
    cases phase : pipe.reorder.phase with
    | loop =>
      cases got : pipe.reorder.recvBuf with
      | cons chunk recvBuf =>
        exact .inl ⟨_, by simp [stepReorder, busy, phase, got],
          .receive chunk recvBuf busy phase got⟩
      | nil =>
        cases empty : (pipe.queues .reorder pipe.reorder.qid).isEmpty with
        | false =>
          exact .inl ⟨_, by simp [stepReorder, busy, phase, got, empty],
            .dequeue busy phase got empty⟩
        | true =>
          cases ended : (pipe.queues .reorder pipe.reorder.qid).isTerminated with
          | true =>
            exact .inl ⟨_, by simp [stepReorder, busy, phase, got, empty, ended],
              .skip busy phase got ⟨ended, List.isEmpty_iff.mp empty⟩⟩
          | false =>
            exact .inr ⟨by simp [stepReorder, busy, phase, got, empty, ended],
              .empty busy phase got empty ended⟩
    | drain =>
      cases left : pipe.reorder.tree with
      | nil => exact .inl ⟨_, by simp [stepReorder, busy, phase, left], .finish busy phase⟩
      | cons chunk tree =>
        by_cases next : chunk = pipe.reorder.next
        · exact .inl ⟨_, by simp [stepReorder, busy, phase, left, next],
            .take chunk tree busy phase left⟩
        · exact .inl ⟨_, by simp [stepReorder, busy, phase, left, next], .finish busy phase⟩
    | finished => exact .inr ⟨by simp [stepReorder, busy, phase], .finished phase⟩

/-- The kinds of steps. -/
inductive Step (setup : Setup) (input : Input κ) (pipe : Pipeline κ) : Pipeline κ → Prop where
  /-- A step of `Fragment`. -/
  | fragment {next : Pipeline κ} (moves : FragmentStep setup pipe next) :
      Step setup input pipe next
  /-- A step of a thread of a stage in the middle. -/
  | worker {next : Pipeline κ} (stage : Stage) (t : Nat) (inside : t < setup.nthreads)
      (moves : WorkerStep setup input stage t pipe next) : Step setup input pipe next
  /-- A step of `Reorder`. -/
  | reorder {next : Pipeline κ} (moves : ReorderStep setup input pipe next) :
      Step setup input pipe next

/-- What a thread does is one of these steps. -/
theorem step_of_act {action : Action} (moves : act setup input pipe action = some next) :
    Step setup input pipe next := by
  cases action with
  | fragment =>
    rcases stepFragment_cases setup pipe with ⟨other, same, step⟩ | ⟨none, -⟩
    · obtain rfl := Option.some.inj (moves.symm.trans same)
      exact .fragment step
    · exact absurd (moves.symm.trans none) (by simp)
  | worker stage t =>
    obtain ⟨inside, step⟩ := workerStep_of_step moves
    exact .worker stage t inside step
  | reorder =>
    rcases stepReorder_cases setup input pipe with ⟨other, same, step⟩ | ⟨none, -⟩
    · obtain rfl := Option.some.inj (moves.symm.trans same)
      exact .reorder step
    · exact absurd (moves.symm.trans none) (by simp)

/-- The steps of the threads in an order reach a state. -/
theorem Reached.acts (reached : Reached setup input pipe) {actions : List Action}
    (run : acts setup input pipe actions = some next) : Reached setup input next := by
  induction actions generalizing pipe with
  | nil =>
    obtain rfl := Option.some.inj run
    exact reached
  | cons action actions ih =>
    unfold Pipeline.acts at run
    obtain ⟨middle, moves, rest⟩ := Option.bind_eq_some_iff.mp run
    exact ih (reached.step ⟨action, moves⟩) rest

end Pipeline

end P3arsec.Dedup.Pthreads
