import Mathlib

/-!
# The synchronized queue

A ring buffer of bounded size with a number of producers, of which each one announces once that
it has terminated. A call that cannot go on waits: a consumer while the queue is empty and not
terminated, a producer while it is full. The queue keeps a record of what was put in and taken
out; the consumers are done when it is terminated and empty (`Ended`).
-/

namespace P3arsec.Dedup

/-- `queue_t`, with a record of its chunks. -/
structure Queue (α : Type) where
  /-- The ring buffer, oldest first. -/
  buf : List α
  /-- `nProducers`. -/
  nProducers : Nat
  /-- `nTerminated`. -/
  nTerminated : Nat
  /-- Everything put into the queue so far. -/
  enqueued : List α
  /-- Everything taken out of the queue so far. -/
  dequeued : List α
  deriving DecidableEq, Repr

namespace Queue

variable {α : Type}

/-- `queue_init`. -/
def init (nProducers : Nat) : Queue α := ⟨[], nProducers, 0, [], []⟩

/-- `ringbuffer_isEmpty`. -/
def isEmpty (que : Queue α) : Bool := que.buf.isEmpty

/-- `ringbuffer_isFull`. -/
def isFull (size : Nat) (que : Queue α) : Bool := size ≤ que.buf.length

/-- `queue_isTerminated`. -/
def isTerminated (que : Queue α) : Bool := que.nTerminated == que.nProducers

/-- `queue_terminate`. -/
def terminate (que : Queue α) : Queue α := { que with nTerminated := que.nTerminated + 1 }

/-- The loop of `queue_dequeue`, for a receive buffer that is empty and has room for `limit`
chunks: what is received, and the queue. -/
def dequeue (limit : Nat) (que : Queue α) : List α × Queue α :=
  (que.buf.take limit, { que with
    buf := que.buf.drop limit
    dequeued := que.dequeued ++ que.buf.take limit })

/-- How many chunks the loop of `queue_enqueue` moves. -/
def moved (size limit : Nat) (que : Queue α) (sendBuf : List α) : Nat :=
  min limit (min (size - que.buf.length) sendBuf.length)

/-- The loop of `queue_enqueue`: what is left in the send buffer, and the queue. -/
def enqueue (size limit : Nat) (que : Queue α) (sendBuf : List α) : List α × Queue α :=
  (sendBuf.drop (que.moved size limit sendBuf), { que with
    buf := que.buf ++ sendBuf.take (que.moved size limit sendBuf)
    enqueued := que.enqueued ++ sendBuf.take (que.moved size limit sendBuf) })

/-- The queue is terminated and empty. -/
def Ended (que : Queue α) : Prop := que.isTerminated = true ∧ que.buf = []

/-- The chunks put in are those taken out and those in the buffer. -/
def Recorded (que : Queue α) : Prop := que.enqueued = que.dequeued ++ que.buf

variable {que : Queue α} {size limit : Nat} {sendBuf : List α}

/-- The queue is terminated when all producers have ended. -/
@[simp] theorem isTerminated_iff : que.isTerminated = true ↔ que.nTerminated = que.nProducers := by
  simp [isTerminated]

/-- A dequeue ends no producer. -/
@[simp] theorem nTerminated_dequeue : (que.dequeue limit).2.nTerminated = que.nTerminated := rfl

/-- A dequeue keeps the number of producers. -/
@[simp] theorem nProducers_dequeue : (que.dequeue limit).2.nProducers = que.nProducers := rfl

/-- An enqueue ends no producer. -/
@[simp] theorem nTerminated_enqueue :
    (que.enqueue size limit sendBuf).2.nTerminated = que.nTerminated := rfl

/-- An enqueue keeps the number of producers. -/
@[simp] theorem nProducers_enqueue :
    (que.enqueue size limit sendBuf).2.nProducers = que.nProducers := rfl

/-- One more producer has ended. -/
@[simp] theorem nTerminated_terminate : que.terminate.nTerminated = que.nTerminated + 1 := rfl

/-- The number of producers is kept. -/
@[simp] theorem nProducers_terminate : que.terminate.nProducers = que.nProducers := rfl

/-- Nothing is recorded at the start. -/
theorem recorded_init (nProducers : Nat) : (init nProducers : Queue α).Recorded := rfl

/-- An end is recorded. -/
theorem Recorded.terminate (recorded : que.Recorded) : que.terminate.Recorded := recorded

/-- A dequeue keeps the record. -/
theorem Recorded.dequeue (recorded : que.Recorded) : (que.dequeue limit).2.Recorded := by
  show que.enqueued = que.dequeued ++ que.buf.take limit ++ que.buf.drop limit
  rw [List.append_assoc, List.take_append_drop]
  exact recorded

/-- An enqueue keeps the record. -/
theorem Recorded.enqueue (recorded : que.Recorded) :
    (que.enqueue size limit sendBuf).2.Recorded := by
  unfold Recorded at recorded ⊢
  simp only [Queue.enqueue, recorded, List.append_assoc]

/-- What has been put into a queue that has ended has been taken out. -/
theorem Recorded.ended (recorded : que.Recorded) (ended : que.Ended) :
    que.dequeued = que.enqueued := by
  rw [recorded, ended.2, List.append_nil]

/-- Taking out of an empty queue changes nothing. -/
theorem Ended.dequeue (ended : que.Ended) : (que.dequeue limit).2.Ended := by
  refine ⟨ended.1, ?_⟩
  show que.buf.drop limit = []
  rw [ended.2, List.drop_nil]

/-- Everything in a send buffer goes into the queue or stays. -/
theorem enqueue_split (que : Queue α) (size limit : Nat) (sendBuf : List α) :
    sendBuf.take (que.moved size limit sendBuf) ++ (que.enqueue size limit sendBuf).1 = sendBuf :=
  List.take_append_drop _ _

end Queue

end P3arsec.Dedup
