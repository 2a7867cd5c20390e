import P3arsec.Fastflow.SwsrBuffer

/-!
# The unbounded single-writer single-reader buffer

`uSWSR_Ptr_Buffer` chains bounded buffers. The producer that meets a full buffer takes another one
from the cache of the pool or allocates it, lists it as in use and goes on there; the consumer that
meets an empty buffer which the producer has left takes the next one from the list and gives its own
back to the cache. Each access to a data buffer, to `buf_r` and to `buf_w` is a step. The list of
buffers in use and the cache are queues of one writer and one reader themselves, and a call of
theirs is one step here; so is `reset`, which writes to a buffer that only the consumer knows.
`malloc` returns any address that is free.
-/

namespace P3arsec.Fastflow

open P3arsec.Lib
open P3arsec.Lib.Concurrent

variable {α : Type}

/-- `CACHE_SIZE`. -/
def cacheSize : Nat := 32

/-- The fields of `uSWSR_Ptr_Buffer` and of its `BufferPool`, with the buffers at their
addresses. -/
structure UswsrBuffer (α : Type) where
  /-- The buffer of the consumer. -/
  bufR : Nat
  /-- The buffer of the producer. -/
  bufW : Nat
  /-- The number of cells of a buffer. -/
  size : Nat
  /-- Whether the producer may not take another buffer. -/
  fixedsize : Bool
  /-- The buffers behind that of the consumer. -/
  inuse : List Nat
  /-- The buffers that are ready for use. -/
  bufcache : List Nat
  /-- What lies at an address. -/
  heap : Nat → SwsrBuffer α
  /-- Whether an address is free. -/
  free : Nat → Bool

/-- Where the producer is in `push`. -/
inductive UProducer (α : Type) where
  | idle
  /-- About to ask whether its buffer is `available`. -/
  | pushing (data : α)
  /-- `next_w` is about to look into the cache. -/
  | refilling (data : α)
  /-- `next_w` is about to allocate a buffer. -/
  | allocating (data : α)
  /-- `next_w` is about to list the buffer as in use. -/
  | listing (data : α) (t : Nat)
  /-- About to go on to the buffer. -/
  | switching (data : α) (t : Nat)
  /-- `push` of the buffer is about to test its cell. -/
  | testing (data : α)
  /-- `push` of the buffer is about to store. -/
  | storing (data : α)
  /-- `push` of the buffer is about to move `pwrite`. -/
  | advancing
  /-- The call is about to return. -/
  | returning (success : Bool)

/-- Where the consumer is in `pop`. -/
inductive UConsumer (α : Type) where
  | idle
  /-- About to ask whether its buffer is `empty`. -/
  | popping
  /-- About to compare the two buffers. -/
  | comparing
  /-- About to ask again whether its buffer is `empty`. -/
  | checking
  /-- `next_r` is about to take the next buffer. -/
  | nexting
  /-- `release` is about to reset the buffer. -/
  | releasing (tmp : Nat)
  /-- `release` is about to give the buffer to the cache. -/
  | caching (tmp : Nat)
  /-- About to go on to the next buffer. -/
  | switching (tmp : Nat)
  /-- `pop` of the buffer is about to test its cell. -/
  | testing
  /-- `pop` of the buffer is about to read its cell. -/
  | reading
  /-- `inc` is about to free the cell. -/
  | clearing (data : Option α)
  /-- `inc` is about to move `pread`. -/
  | advancing (data : Option α)
  /-- The call is about to return. -/
  | returning (answer : Answer α)

namespace UswsrBuffer

/-- The constructor and `init`, with the first buffer at `address`. -/
def init (size : Nat) (fixedsize : Bool) (address : Nat) : Option (UswsrBuffer α) :=
  (SwsrBuffer.init size false).map fun b =>
    { bufR := address, bufW := address, size, fixedsize, inuse := [], bufcache := []
      heap := fun _ => b, free := fun other => other ≠ address }

/-- What lies at an address is changed. -/
def change (u : UswsrBuffer α) (address : Nat) (b : SwsrBuffer α) : UswsrBuffer α :=
  { u with heap := Function.update u.heap address b }

/-- What the producer does next, apart from an allocation. -/
def produce (u : UswsrBuffer α) : UProducer α → Option (UProducer α × UswsrBuffer α)
  | .idle => none
  | .pushing data =>
    some (if (u.heap u.bufW).available then .testing data
      else if u.fixedsize then .returning false else .refilling data, u)
  | .refilling data =>
    match u.bufcache with
    | t :: rest => some (.listing data t, { u with bufcache := rest })
    | [] => some (.allocating data, u)
  | .allocating _ => none
  | .listing data t => some (.switching data t, { u with inuse := u.inuse ++ [t] })
  | .switching data t => some (.testing data, { u with bufW := t })
  -- the answer of the buffer's own `push` is not looked at
  | .testing data => some (if (u.heap u.bufW).available then .storing data else .returning true, u)
  | .storing data =>
    some (.advancing, u.change u.bufW ((u.heap u.bufW).write (u.heap u.bufW).pwrite (some data)))
  | .advancing =>
    some (.returning true, u.change u.bufW
      { u.heap u.bufW with
        pwrite := SwsrBuffer.advance (u.heap u.bufW).size (u.heap u.bufW).pwrite })
  | .returning _ => none

/-- `next_w` allocates a buffer. -/
def allocate (u : UswsrBuffer α) (address : Nat) : Option (UswsrBuffer α) :=
  (SwsrBuffer.init u.size false).map fun b =>
    { u.change address b with free := Function.update u.free address false }

/-- What the consumer does next. -/
def consume (u : UswsrBuffer α) : UConsumer α → Option (UConsumer α × UswsrBuffer α)
  | .idle => none
  | .popping => some (if (u.heap u.bufR).empty then .comparing else .testing, u)
  | .comparing => some (if u.bufR = u.bufW then .returning .nothing else .checking, u)
  | .checking => some (if (u.heap u.bufR).empty then .nexting else .testing, u)
  | .nexting =>
    match u.inuse with
    | tmp :: rest => some (.releasing tmp, { u with inuse := rest })
    | [] => some (.testing, u)
  | .releasing tmp => some (.caching tmp, u.change u.bufR ((u.heap u.bufR).reset false))
  | .caching tmp =>
    some (.switching tmp,
      if u.bufcache.length < cacheSize then { u with bufcache := u.bufcache ++ [u.bufR] }
      else { u with free := Function.update u.free u.bufR true })
  | .switching tmp => some (.testing, { u with bufR := tmp })
  | .testing => some (if (u.heap u.bufR).empty then .returning .nothing else .reading, u)
  | .reading => some (.clearing ((u.heap u.bufR).buf (u.heap u.bufR).pread), u)
  | .clearing data =>
    some (.advancing data, u.change u.bufR ((u.heap u.bufR).write (u.heap u.bufR).pread none))
  | .advancing data =>
    some (.returning (.popped data), u.change u.bufR
      { u.heap u.bufR with
        pread := SwsrBuffer.advance (u.heap u.bufR).size (u.heap u.bufR).pread })
  | .returning _ => none

end UswsrBuffer

/-- An unbounded buffer with its two parties. -/
structure UChannel (α : Type) where
  buffer : UswsrBuffer α
  producer : UProducer α
  consumer : UConsumer α

/-- A step of one of the parties. -/
inductive UChannel.Step :
    UChannel α → Option (Event Party (Operation α) (Answer α)) → UChannel α → Prop where
  | push {u : UswsrBuffer α} {consumer : UConsumer α} (data : α) :
      UChannel.Step ⟨u, .idle, consumer⟩ (some (.call .producer (.push data)))
        ⟨u, .pushing data, consumer⟩
  | produce {u u' : UswsrBuffer α} {producer next : UProducer α} {consumer : UConsumer α}
      (moves : u.produce producer = some (next, u')) :
      UChannel.Step ⟨u, producer, consumer⟩ none ⟨u', next, consumer⟩
  | allocate {u u' : UswsrBuffer α} {consumer : UConsumer α} {data : α} {address : Nat}
      (free : u.free address = true) (moves : u.allocate address = some u') :
      UChannel.Step ⟨u, .allocating data, consumer⟩ none ⟨u', .listing data address, consumer⟩
  | pushed {u : UswsrBuffer α} {consumer : UConsumer α} {success : Bool} :
      UChannel.Step ⟨u, .returning success, consumer⟩
        (some (.answer .producer (.pushed success))) ⟨u, .idle, consumer⟩
  | pop {u : UswsrBuffer α} {producer : UProducer α} :
      UChannel.Step ⟨u, producer, .idle⟩ (some (.call .consumer .pop)) ⟨u, producer, .popping⟩
  | consume {u u' : UswsrBuffer α} {producer : UProducer α} {consumer next : UConsumer α}
      (moves : u.consume consumer = some (next, u')) :
      UChannel.Step ⟨u, producer, consumer⟩ none ⟨u', producer, next⟩
  | popped {u : UswsrBuffer α} {producer : UProducer α} {answer : Answer α} :
      UChannel.Step ⟨u, producer, .returning answer⟩ (some (.answer .consumer answer))
        ⟨u, producer, .idle⟩

/-- The queue that the buffer stands for; it has a bound only where the size is fixed. -/
inductive Unbounded (fixedsize : Bool) (size : Nat) :
    List α → Operation α → Answer α → List α → Prop where
  | pushed {queue : List α} {data : α} (room : fixedsize = true → queue.length < size) :
      Unbounded fixedsize size queue (.push data) (.pushed true) (queue ++ [data])
  | full {queue : List α} {data : α} (fixed : fixedsize = true) (full : queue.length = size) :
      Unbounded fixedsize size queue (.push data) (.pushed false) queue
  | popped {data : α} {queue : List α} :
      Unbounded fixedsize size (data :: queue) .pop (.popped (some data)) queue
  | empty : Unbounded fixedsize size [] .pop .nothing []

end P3arsec.Fastflow
