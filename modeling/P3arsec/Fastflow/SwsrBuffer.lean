import P3arsec.Lib.Circular
import P3arsec.Lib.Linearize

/-!
# The bounded single-writer single-reader buffer

`SWSR_Ptr_Buffer` joins one producer and one consumer without a lock. A cell that holds no pointer
is free, so the producer tests the cell at `pwrite`, the consumer the one at `pread`, and neither
reads the index of the other. Every access to a cell or an index is a step of its own here, and the
steps of the two parties interleave in any order. `multipush` writes a batch from its last entry to
its first: the consumer waits at the cell of the first one and so meets the whole batch.
-/

namespace P3arsec.Fastflow

open P3arsec.Lib
open P3arsec.Lib.Concurrent

variable {α : Type}

/-- The indices, the length and the cells of `SWSR_Ptr_Buffer`. -/
structure SwsrBuffer (α : Type) where
  /-- Where the consumer reads next. -/
  pread : Nat
  /-- Where the producer writes next. -/
  pwrite : Nat
  /-- The number of cells. -/
  size : Nat
  /-- The cells; a free one holds nothing. -/
  buf : Nat → Option α

/-- `longxCacheLine`: the pointers that a cache line of 64 bytes holds. -/
def longxCacheLine : Nat := 8

namespace SwsrBuffer

/-- An index moves on: `p += (p+1 >= size) ? (1-size) : 1`. -/
def advance (size p : Nat) : Nat :=
  if p + 1 ≥ size then p + 1 - size else p + 1

/-- `empty`. -/
def empty (b : SwsrBuffer α) : Bool := (b.buf b.pread).isNone

/-- `available`. -/
def available (b : SwsrBuffer α) : Bool := (b.buf b.pwrite).isNone

/-- `reset`: both indices to the begin, or to the last entry of the first cache line, and all cells
free. -/
def reset (b : SwsrBuffer α) (startatlineend : Bool) : SwsrBuffer α :=
  let first := if startatlineend then longxCacheLine - 1 else 0
  { b with pread := first, pwrite := first, buf := fun _ => none }

/-- The constructor and `init`, which fails for a buffer without cells. -/
def init (size : Nat) (startatlineend : Bool) : Option (SwsrBuffer α) :=
  if size = 0 then none
  else some (({ pread := 0, pwrite := 0, size, buf := fun _ => none } : SwsrBuffer α).reset
    startatlineend)

/-- `length`. -/
def length (b : SwsrBuffer α) : Nat :=
  if b.pread < b.pwrite then b.pwrite - b.pread
  else if b.pwrite < b.pread then b.size - (b.pread - b.pwrite)
  else if (b.buf b.pwrite).isNone then 0 else b.size

/-- A store to a cell. -/
def write (b : SwsrBuffer α) (i : Nat) (data : Option α) : SwsrBuffer α :=
  { b with buf := Function.update b.buf i data }

/-- `last` of `multipush`, where `len` is lowered already. -/
def last (b : SwsrBuffer α) (len : Nat) : Nat :=
  b.pwrite + len - if b.pwrite + len ≥ b.size then b.size else 0

/-- The stores of `multipush` in their order: down from `last` to the begin and then down from the
end where the batch wraps around, else down from `last` at once. -/
def batch (b : SwsrBuffer α) (data : List α) : List (Nat × Option α) :=
  let len := data.length - 1
  let last := b.last len
  if last < b.pwrite then
    let r := len - (last + 1)
    (List.range (last + 1)).map (fun k => (last - k, data[len - k]?)) ++
      (List.range (b.size - b.pwrite)).map fun k => (b.size - 1 - k, data[r - k]?)
  else
    (List.range (len + 1)).map fun k => (b.pwrite + (len - k), data[len - k]?)

end SwsrBuffer

/-- The two parties. -/
inductive Party where
  | producer
  | consumer
  deriving DecidableEq

/-- The calls of the parties. -/
inductive Operation (α : Type) where
  | push (data : α)
  | multipush (data : List α)
  | pop

/-- What a call returns. -/
inductive Answer (α : Type) where
  /-- `push` and `multipush`. -/
  | pushed (success : Bool)
  /-- `pop` that succeeds, with what it stores to its argument. -/
  | popped (data : Option α)
  /-- `pop` that fails. -/
  | nothing

/-- Where the producer is in its call. -/
inductive Producer (α : Type) where
  | idle
  /-- `push` is about to test its cell. -/
  | pushing (data : α)
  /-- `push` is about to store. -/
  | storing (data : α)
  /-- `push` is about to move `pwrite`. -/
  | advancing
  /-- `multipush` is about to test its last cell. -/
  | batching (data : List α)
  /-- `multipush` is in its loops, or about to move `pwrite` behind them. -/
  | writing (last : Nat) (stores : List (Nat × Option α))
  /-- The call is about to return. -/
  | returning (success : Bool)

/-- Where the consumer is in its call. -/
inductive Consumer (α : Type) where
  | idle
  /-- `pop` is about to test its cell. -/
  | popping
  /-- `pop` is about to read its cell. -/
  | reading
  /-- `inc` is about to free the cell. -/
  | clearing (data : Option α)
  /-- `inc` is about to move `pread`. -/
  | advancing (data : Option α)
  /-- The call is about to return. -/
  | returning (answer : Answer α)

namespace SwsrBuffer

/-- What the producer does next. -/
def produce (b : SwsrBuffer α) : Producer α → Option (Producer α × SwsrBuffer α)
  | .idle => none
  | .pushing data => some (if b.available then .storing data else .returning false, b)
  | .storing data => some (.advancing, b.write b.pwrite (some data))
  | .advancing => some (.returning true, { b with pwrite := advance b.size b.pwrite })
  | .batching data =>
    if data.length ≥ b.size then some (.returning false, b)
    else if (b.buf (b.last (data.length - 1))).isNone then
      some (.writing (b.last (data.length - 1)) (b.batch data), b)
    else some (.returning false, b)
  | .writing last ((i, data) :: stores) => some (.writing last stores, b.write i data)
  | .writing last [] =>
    some (.returning true, { b with pwrite := if last + 1 ≥ b.size then 0 else last + 1 })
  | .returning _ => none

/-- What the consumer does next. -/
def consume (b : SwsrBuffer α) : Consumer α → Option (Consumer α × SwsrBuffer α)
  | .idle => none
  | .popping => some (if b.empty then .returning .nothing else .reading, b)
  | .reading => some (.clearing (b.buf b.pread), b)
  | .clearing data => some (.advancing data, b.write b.pread none)
  | .advancing data =>
    some (.returning (.popped data), { b with pread := advance b.size b.pread })
  | .returning _ => none

end SwsrBuffer

/-- A buffer with its two parties. -/
structure Channel (α : Type) where
  buffer : SwsrBuffer α
  producer : Producer α
  consumer : Consumer α

/-- A step of one of the parties. The batch of `multipush` is not empty. -/
inductive Channel.Step :
    Channel α → Option (Event Party (Operation α) (Answer α)) → Channel α → Prop where
  | push {b : SwsrBuffer α} {consumer : Consumer α} (data : α) :
      Channel.Step ⟨b, .idle, consumer⟩ (some (.call .producer (.push data)))
        ⟨b, .pushing data, consumer⟩
  | multipush {b : SwsrBuffer α} {consumer : Consumer α} (data : List α) (filled : data ≠ []) :
      Channel.Step ⟨b, .idle, consumer⟩ (some (.call .producer (.multipush data)))
        ⟨b, .batching data, consumer⟩
  | produce {b b' : SwsrBuffer α} {producer next : Producer α} {consumer : Consumer α}
      (moves : b.produce producer = some (next, b')) :
      Channel.Step ⟨b, producer, consumer⟩ none ⟨b', next, consumer⟩
  | pushed {b : SwsrBuffer α} {consumer : Consumer α} {success : Bool} :
      Channel.Step ⟨b, .returning success, consumer⟩
        (some (.answer .producer (.pushed success))) ⟨b, .idle, consumer⟩
  | pop {b : SwsrBuffer α} {producer : Producer α} :
      Channel.Step ⟨b, producer, .idle⟩ (some (.call .consumer .pop)) ⟨b, producer, .popping⟩
  | consume {b b' : SwsrBuffer α} {producer : Producer α} {consumer next : Consumer α}
      (moves : b.consume consumer = some (next, b')) :
      Channel.Step ⟨b, producer, consumer⟩ none ⟨b', producer, next⟩
  | popped {b : SwsrBuffer α} {producer : Producer α} {answer : Answer α} :
      Channel.Step ⟨b, producer, .returning answer⟩ (some (.answer .consumer answer))
        ⟨b, producer, .idle⟩

/-- The queue of at most `size` entries that the buffer stands for. -/
inductive Bounded (size : Nat) : List α → Operation α → Answer α → List α → Prop where
  | pushed {queue : List α} {data : α} (room : queue.length < size) :
      Bounded size queue (.push data) (.pushed true) (queue ++ [data])
  | full {queue : List α} {data : α} (full : queue.length = size) :
      Bounded size queue (.push data) (.pushed false) queue
  | batched {queue data : List α} (below : data.length < size)
      (room : queue.length + data.length ≤ size) :
      Bounded size queue (.multipush data) (.pushed true) (queue ++ data)
  | refused {queue data : List α}
      (crowded : size ≤ data.length ∨ size < queue.length + data.length) :
      Bounded size queue (.multipush data) (.pushed false) queue
  | popped {data : α} {queue : List α} :
      Bounded size (data :: queue) .pop (.popped (some data)) queue
  | empty : Bounded size [] .pop .nothing []

namespace SwsrBuffer

/-- An index moves on by one place. -/
theorem advance_place {size first i : Nat} (below : first < size) (inside : i < size) :
    advance size (place size first i) = place size first (i + 1) := by
  unfold advance place
  split_ifs <;> omega

/-- An index in the buffer moves to the next place. -/
theorem advance_eq {size first : Nat} (below : first < size) :
    advance size first = place size first 1 := by
  have known := advance_place (i := 0) below (by omega)
  rwa [place_zero below] at known

/-- The index behind a batch. -/
theorem wrap_place {size first used len : Nat} (inside : first < size) (below : len < size)
    (positive : 0 < len) (room : used + len ≤ size) :
    (if place size (place size first used) (len - 1) + 1 ≥ size then 0
      else place size (place size first used) (len - 1) + 1) = place size first (used + len) := by
  unfold place
  split_ifs <;> omega

section Batch

variable {b : SwsrBuffer α} {data : List α}

/-- The last cell of a batch. -/
theorem last_eq {len : Nat} : b.last len = place b.size b.pwrite len := by
  unfold last place
  split_ifs <;> omega

/-- The loops of `multipush` store every entry at its place, the last one first. -/
theorem batch_eq (inside : b.pwrite < b.size) (filled : data ≠ [])
    (below : data.length < b.size) :
    b.batch data = (List.range data.length).map fun k =>
      (place b.size b.pwrite (data.length - 1 - k), data[data.length - 1 - k]?) := by
  have positive := List.length_pos_of_ne_nil filled
  unfold batch
  simp only [last_eq]
  by_cases wraps : b.pwrite + (data.length - 1) < b.size
  · have at_last : place b.size b.pwrite (data.length - 1) = b.pwrite + (data.length - 1) :=
      if_pos wraps
    rw [at_last, if_neg (by omega), Nat.sub_add_cancel positive]
    refine List.map_congr_left fun k inside => ?_
    rw [List.mem_range] at inside
    have place_k : place b.size b.pwrite (data.length - 1 - k) =
        b.pwrite + (data.length - 1 - k) := if_pos (by omega)
    rw [place_k]
  · have at_last : place b.size b.pwrite (data.length - 1) =
        b.pwrite + (data.length - 1) - b.size := if_neg wraps
    rw [at_last, if_pos (by omega)]
    have total : data.length =
        (b.pwrite + (data.length - 1) - b.size + 1) + (b.size - b.pwrite) := by omega
    conv_rhs => rw [total, List.range_add, List.map_append, List.map_map, ← total]
    congr 1
    · refine List.map_congr_left fun k inside => ?_
      rw [List.mem_range] at inside
      have place_k : place b.size b.pwrite (data.length - 1 - k) =
          b.pwrite + (data.length - 1) - b.size - k := by unfold place; split_ifs <;> omega
      rw [place_k]
    · refine List.map_congr_left fun k inside => ?_
      rw [List.mem_range] at inside
      have place_k : place b.size b.pwrite (data.length - 1 -
          (b.pwrite + (data.length - 1) - b.size + 1 + k)) = b.size - 1 - k := by
        unfold place; split_ifs <;> omega
      simp only [Function.comp_apply]
      rw [place_k, Nat.sub_sub (data.length - 1)]

end Batch

end SwsrBuffer

/-- How far the producer's call is. The place behind the queue is where `pwrite` points outside of
the calls. -/
inductive Producing (size pwrite behind used : Nat) :
    Producer α → Nat → List α → Glance (Operation α) (Answer α) → Prop where
  | idle {left : Nat} (at_end : pwrite = behind) :
      Producing size pwrite behind used .idle left [] .idle
  | pushing {left : Nat} {data : α} {seen : Set (Answer α)} (at_end : pwrite = behind) :
      Producing size pwrite behind used (.pushing data) left [] (.called (.push data) seen)
  | storing {left : Nat} {data : α} {seen : Set (Answer α)} (at_end : pwrite = behind)
      (room : used < size) :
      Producing size pwrite behind used (.storing data) left [] (.called (.push data) seen)
  | advancing {left : Nat} (before : SwsrBuffer.advance size pwrite = behind) :
      Producing size pwrite behind used .advancing left [] (.acted (.pushed true))
  | batching {left : Nat} {data : List α} {seen : Set (Answer α)} (at_end : pwrite = behind)
      (filled : data ≠ []) :
      Producing size pwrite behind used (.batching data) left [] (.called (.multipush data) seen)
  | writing {left : Nat} {data : List α} {seen : Set (Answer α)} (at_end : pwrite = behind)
      (below : data.length < size) (positive : 0 < left) (left_le : left ≤ data.length) :
      Producing size pwrite behind used
        (.writing (place size behind (data.length - 1))
          ((List.range left).map fun k => (place size behind (left - 1 - k), data[left - 1 - k]?)))
        left data (.called (.multipush data) seen)
  | written {left last : Nat} (before : (if last + 1 ≥ size then 0 else last + 1) = behind) :
      Producing size pwrite behind used (.writing last []) left [] (.acted (.pushed true))
  | returning {left : Nat} {success : Bool} (at_end : pwrite = behind) :
      Producing size pwrite behind used (.returning success) left [] (.acted (.pushed success))

/-- A queue that gets shorter leaves the producer where it is. -/
theorem Producing.shorter {size pwrite behind used used' left : Nat} {producer : Producer α}
    {batch : List α} {glance : Glance (Operation α) (Answer α)} (fewer : used' ≤ used)
    (producing : Producing size pwrite behind used producer left batch glance) :
    Producing size pwrite behind used' producer left batch glance := by
  cases producing with
  | idle at_end => exact .idle at_end
  | pushing at_end => exact .pushing at_end
  | storing at_end room => exact .storing at_end (by omega)
  | advancing before => exact .advancing before
  | batching at_end filled => exact .batching at_end filled
  | writing at_end below positive left_le => exact .writing at_end below positive left_le
  | written before => exact .written before
  | returning at_end => exact .returning at_end

/-- The producer outside of its calls. -/
theorem Producing.of_idle {size pwrite behind used left : Nat} {batch : List α}
    {glance : Glance (Operation α) (Answer α)}
    (producing : Producing size pwrite behind used .idle left batch glance) :
    pwrite = behind ∧ batch = [] ∧ glance = .idle := by
  cases producing with
  | idle at_end => exact ⟨at_end, rfl, rfl⟩

/-- The producer before its call returns. -/
theorem Producing.of_returning {size pwrite behind used left : Nat} {batch : List α}
    {success : Bool} {glance : Glance (Operation α) (Answer α)}
    (producing : Producing size pwrite behind used (.returning success) left batch glance) :
    pwrite = behind ∧ batch = [] ∧ glance = .acted (.pushed success) := by
  cases producing with
  | returning at_end => exact ⟨at_end, rfl, rfl⟩

/-- How far the consumer's call is. -/
inductive Consuming (size pread first : Nat) (queue : List α) :
    Consumer α → Glance (Operation α) (Answer α) → Prop where
  | idle (at_first : pread = first) : Consuming size pread first queue .idle .idle
  | popping {seen : Set (Answer α)} (at_first : pread = first) :
      Consuming size pread first queue .popping (.called .pop seen)
  | reading {seen : Set (Answer α)} (at_first : pread = first) (filled : queue ≠ []) :
      Consuming size pread first queue .reading (.called .pop seen)
  | clearing {seen : Set (Answer α)} {data : α} (at_first : pread = first)
      (known : queue.head? = some data) :
      Consuming size pread first queue (.clearing (some data)) (.called .pop seen)
  | advancing {data : Option α} (before : SwsrBuffer.advance size pread = first) :
      Consuming size pread first queue (.advancing data) (.acted (.popped data))
  | returning {answer : Answer α} (at_first : pread = first) :
      Consuming size pread first queue (.returning answer) (.acted answer)

/-- A queue that gets longer leaves the consumer where it is. -/
theorem Consuming.longer {size pread first : Nat} {queue : List α} {consumer : Consumer α}
    {glance : Glance (Operation α) (Answer α)} (more : List α)
    (consuming : Consuming size pread first queue consumer glance) :
    Consuming size pread first (queue ++ more) consumer glance := by
  cases consuming with
  | idle at_first => exact .idle at_first
  | popping at_first => exact .popping at_first
  | reading at_first filled => exact .reading at_first (by simp [filled])
  | clearing at_first known => exact .clearing at_first (by simp [known])
  | advancing before => exact .advancing before
  | returning at_first => exact .returning at_first

/-- The consumer outside of its calls. -/
theorem Consuming.of_idle {size pread first : Nat} {queue : List α}
    {glance : Glance (Operation α) (Answer α)}
    (consuming : Consuming size pread first queue .idle glance) :
    pread = first ∧ glance = .idle := by
  cases consuming with
  | idle at_first => exact ⟨at_first, rfl⟩

/-- The consumer before its call returns. -/
theorem Consuming.of_returning {size pread first : Nat} {queue : List α} {answer : Answer α}
    {glance : Glance (Operation α) (Answer α)}
    (consuming : Consuming size pread first queue (.returning answer) glance) :
    pread = first ∧ glance = .acted answer := by
  cases consuming with
  | returning at_first => exact ⟨at_first, rfl⟩

/-- The queue that a state of the buffer stands for. -/
def Channel.Related (size : Nat) (state : Channel α)
    (object : Witnessed Party (List α) (Operation α) (Answer α)) : Prop :=
  state.buffer.size = size ∧ ∃ first left batch,
    Slots size state.buffer.buf first object.value left batch ∧
    Producing size state.buffer.pwrite (place size first object.value.length) object.value.length
      state.producer left batch (object.glance .producer) ∧
    Consuming size state.buffer.pread first object.value state.consumer (object.glance .consumer)

namespace Channel

/-- A step of a party without an event is matched by at most one step of the queue. -/
def Matched (size : Nat) (object : Witnessed Party (List α) (Operation α) (Answer α))
    (next : Channel α) : Prop :=
  ∃ object', (object' = object ∨ Witnessed.Step (Bounded size) object none object') ∧
    Related size next object'

section Steps

variable {size first left : Nat} {b b' : SwsrBuffer α} {producer next : Producer α}
variable {consumer next' : Consumer α} {queue batch : List α}
variable {glance : Party → Glance (Operation α) (Answer α)}
variable {event : Option (Event Party (Operation α) (Answer α))}

/-- `push` tests its cell. -/
theorem produce_pushing_matched {data : α} {seen : Set (Answer α)}
    (slots : Slots b.size b.buf first queue left [])
    (consuming : Consuming b.size b.pread first queue consumer (glance .consumer))
    (at_end : b.pwrite = place b.size first queue.length)
    (produced : glance .producer = .called (.push data) seen)
    (moves : b.produce (.pushing data) = some (next, b')) :
    Matched b.size ⟨queue, glance⟩ ⟨b', next, consumer⟩ := by
  have tested : b.available = true ↔ queue.length < b.size := by
    rw [SwsrBuffer.available, at_end]
    exact slots.end_isNone
  cases known : b.available with
  | true =>
    simp only [SwsrBuffer.produce, known, if_true, Option.some.injEq, Prod.mk.injEq] at moves
    obtain ⟨rfl, rfl⟩ := moves
    refine ⟨_, .inl rfl, rfl, first, left, [], slots, ?_, consuming⟩
    dsimp only
    rw [produced]
    exact .storing at_end (tested.mp known)
  | false =>
    simp only [SwsrBuffer.produce, known, Bool.false_eq_true, if_false, Option.some.injEq,
      Prod.mk.injEq] at moves
    obtain ⟨rfl, rfl⟩ := moves
    have full : queue.length = b.size := by
      have none_free : ¬queue.length < b.size := fun room => by simp [tested.mpr room] at known
      have length_le := slots.length_le
      omega
    refine ⟨_, .inr (.act produced (.full full)), rfl, first, left, [], slots, ?_, ?_⟩
    · dsimp only
      rw [Function.update_self]
      exact .returning at_end
    · dsimp only
      rw [Function.update_of_ne (by decide)]
      exact consuming

/-- `push` stores: this is where it takes effect. -/
theorem produce_storing_matched {data : α} {seen : Set (Answer α)}
    (slots : Slots b.size b.buf first queue left [])
    (consuming : Consuming b.size b.pread first queue consumer (glance .consumer))
    (at_end : b.pwrite = place b.size first queue.length) (room : queue.length < b.size)
    (produced : glance .producer = .called (.push data) seen)
    (moves : b.produce (.storing data) = some (next, b')) :
    Matched b.size ⟨queue, glance⟩ ⟨b', next, consumer⟩ := by
  obtain ⟨rfl, rfl⟩ := (Prod.mk.injEq ..).mp (Option.some.inj moves)
  refine ⟨_, .inr (.act produced (.pushed room)), rfl, first, 0, [], ?_, ?_, ?_⟩
  · dsimp only [SwsrBuffer.write]
    rw [at_end]
    exact slots.push room data
  · have moved : SwsrBuffer.advance b.size b.pwrite =
        place b.size first (queue ++ [data]).length := by
      rw [at_end, SwsrBuffer.advance_place slots.start_lt room, List.length_append,
        List.length_singleton]
    dsimp only
    rw [Function.update_self]
    exact .advancing moved
  · dsimp only
    rw [Function.update_of_ne (by decide)]
    exact consuming.longer [data]

/-- `multipush` refuses a batch. -/
theorem produce_refused_matched {data : List α} {seen : Set (Answer α)}
    (slots : Slots b.size b.buf first queue left [])
    (consuming : Consuming b.size b.pread first queue consumer (glance .consumer))
    (at_end : b.pwrite = place b.size first queue.length)
    (produced : glance .producer = .called (.multipush data) seen)
    (refused : b.size ≤ data.length ∨ b.size < queue.length + data.length) :
    Matched b.size ⟨queue, glance⟩ ⟨b, .returning false, consumer⟩ := by
  refine ⟨_, .inr (.act produced (.refused refused)), rfl, first, left, [], slots, ?_, ?_⟩
  · dsimp only
    rw [Function.update_self]
    exact .returning at_end
  · dsimp only
    rw [Function.update_of_ne (by decide)]
    exact consuming

/-- `multipush` looks at the place of the last entry of a batch. -/
theorem produce_batching_matched {data : List α} {seen : Set (Answer α)}
    (slots : Slots b.size b.buf first queue left [])
    (consuming : Consuming b.size b.pread first queue consumer (glance .consumer))
    (at_end : b.pwrite = place b.size first queue.length) (filled : data ≠ [])
    (produced : glance .producer = .called (.multipush data) seen)
    (moves : b.produce (.batching data) = some (next, b')) :
    Matched b.size ⟨queue, glance⟩ ⟨b', next, consumer⟩ := by
  have behind_lt := place_lt slots.start_lt slots.length_le
  have positive := List.length_pos_of_ne_nil filled
  have last_is : b.last (data.length - 1) =
      place b.size (place b.size first queue.length) (data.length - 1) := by
    rw [SwsrBuffer.last_eq, at_end]
  simp only [SwsrBuffer.produce] at moves
  split_ifs at moves with long free
  · obtain ⟨rfl, rfl⟩ := (Prod.mk.injEq ..).mp (Option.some.inj moves)
    exact produce_refused_matched slots consuming at_end produced (.inl long)
  · obtain ⟨rfl, rfl⟩ := (Prod.mk.injEq ..).mp (Option.some.inj moves)
    rw [last_is, slots.behind_isNone (by omega)] at free
    refine ⟨_, .inl rfl, rfl, first, data.length, data, slots.begin_batch (by omega), ?_,
      consuming⟩
    dsimp only
    rw [produced, SwsrBuffer.batch_eq (by omega) filled (by omega), last_is, at_end]
    exact .writing rfl (by omega) positive le_rfl
  · rw [last_is, slots.behind_isNone (by omega)] at free
    obtain ⟨rfl, rfl⟩ := (Prod.mk.injEq ..).mp (Option.some.inj moves)
    exact produce_refused_matched slots consuming at_end produced (.inr (by omega))

/-- `multipush` stores an entry, the last ones first: with the first one the batch takes effect. -/
theorem produce_writing_matched {seen : Set (Answer α)}
    (slots : Slots b.size b.buf first queue left batch)
    (consuming : Consuming b.size b.pread first queue consumer (glance .consumer))
    (at_end : b.pwrite = place b.size first queue.length) (below : batch.length < b.size)
    (positive : 0 < left) (left_le : left ≤ batch.length)
    (produced : glance .producer = .called (.multipush batch) seen)
    (moves : b.produce (.writing (place b.size (place b.size first queue.length)
      (batch.length - 1)) ((List.range left).map fun k =>
        (place b.size (place b.size first queue.length) (left - 1 - k),
          batch[left - 1 - k]?))) = some (next, b')) :
    Matched b.size ⟨queue, glance⟩ ⟨b', next, consumer⟩ := by
  have behind_lt := place_lt slots.start_lt slots.length_le
  obtain ⟨left, rfl⟩ : ∃ n, left = n + 1 := ⟨left - 1, by omega⟩
  have stores : (List.range (left + 1)).map (fun k =>
      (place b.size (place b.size first queue.length) (left + 1 - 1 - k),
        batch[left + 1 - 1 - k]?)) =
      (place b.size (place b.size first queue.length) left, batch[left]?) ::
        (List.range left).map fun k =>
          (place b.size (place b.size first queue.length) (left - 1 - k),
            batch[left - 1 - k]?) := by
    rw [List.range_succ_eq_map, List.map_cons, List.map_map]
    congr 1
    refine List.map_congr_left fun k _ => ?_
    have same : left + 1 - 1 - (k + 1) = left - 1 - k := by omega
    simp only [Function.comp_apply, Nat.succ_eq_add_one, same]
  rw [stores] at moves
  obtain ⟨rfl, rfl⟩ := (Prod.mk.injEq ..).mp (Option.some.inj moves)
  rcases Nat.eq_zero_or_pos left with rfl | some_left
  · -- the store of the first entry, with which the batch takes effect
    obtain ⟨x, rest, rfl⟩ : ∃ x rest, batch = x :: rest :=
      List.exists_cons_of_length_pos (by omega)
    have room := slots.room
    refine ⟨_, .inr (.act produced (.batched below room)), rfl, first, 0, [], ?_, ?_, ?_⟩
    · dsimp only [SwsrBuffer.write]
      rw [place_zero behind_lt]
      exact slots.publish
    · dsimp only
      rw [Function.update_self]
      refine .written ?_
      rw [List.length_append]
      exact SwsrBuffer.wrap_place slots.start_lt below (List.length_pos_of_ne_nil (by simp)) room
    · dsimp only
      rw [Function.update_of_ne (by decide)]
      exact consuming.longer (x :: rest)
  · refine ⟨_, .inl rfl, rfl, first, left, batch, slots.write some_left (by omega), ?_, consuming⟩
    dsimp only
    rw [produced]
    exact .writing at_end below some_left (by omega)

/-- The step of the producer is matched. -/
theorem produce_matched (moves : b.produce producer = some (next, b'))
    (related : Related size ⟨b, producer, consumer⟩ ⟨queue, glance⟩) :
    Matched size ⟨queue, glance⟩ ⟨b', next, consumer⟩ := by
  obtain ⟨sized, first, left, batch, slots, producing, consuming⟩ := related
  dsimp only at sized slots producing consuming
  subst sized
  generalize produced : glance .producer = said at producing
  cases producing with
  | pushing at_end => exact produce_pushing_matched slots consuming at_end produced moves
  | storing at_end room => exact produce_storing_matched slots consuming at_end room produced moves
  | advancing before | written before =>
    obtain ⟨rfl, rfl⟩ := (Prod.mk.injEq ..).mp (Option.some.inj moves)
    refine ⟨_, .inl rfl, rfl, first, left, [], slots, ?_, consuming⟩
    dsimp only
    rw [produced]
    exact .returning before
  | batching at_end filled =>
    exact produce_batching_matched slots consuming at_end filled produced moves
  | writing at_end below positive left_le =>
    exact produce_writing_matched slots consuming at_end below positive left_le produced moves
  | idle | returning => cases moves

/-- The step of the consumer is matched. -/
theorem consume_matched (moves : b.consume consumer = some (next', b'))
    (related : Related size ⟨b, producer, consumer⟩ ⟨queue, glance⟩) :
    Matched size ⟨queue, glance⟩ ⟨b', producer, next'⟩ := by
  obtain ⟨sized, first, left, batch, slots, producing, consuming⟩ := related
  dsimp only at sized slots producing consuming
  subst sized
  generalize consumed : glance .consumer = said at consuming
  cases consuming with
  | idle at_first => cases moves
  | popping at_first =>
    have tested : b.empty = true ↔ queue = [] := by
      rw [SwsrBuffer.empty, at_first]
      exact slots.start_isNone
    cases known : b.empty with
    | true =>
      simp only [SwsrBuffer.consume, known, if_true, Option.some.injEq, Prod.mk.injEq] at moves
      obtain ⟨rfl, rfl⟩ := moves
      obtain rfl := tested.mp known
      refine ⟨_, .inr (.act consumed .empty), rfl, first, left, batch, slots, ?_, ?_⟩
      · dsimp only
        rw [Function.update_of_ne (by decide)]
        exact producing
      · dsimp only
        rw [Function.update_self]
        exact .returning at_first
    | false =>
      simp only [SwsrBuffer.consume, known, Bool.false_eq_true, if_false, Option.some.injEq,
        Prod.mk.injEq] at moves
      obtain ⟨rfl, rfl⟩ := moves
      refine ⟨_, .inl rfl, rfl, first, left, batch, slots, producing, ?_⟩
      dsimp only
      rw [consumed]
      exact .reading at_first fun absent => by simp [tested.mpr absent] at known
  | reading at_first filled =>
    obtain ⟨rfl, rfl⟩ := (Prod.mk.injEq ..).mp (Option.some.inj moves)
    obtain ⟨x, rest, rfl⟩ := List.exists_cons_of_ne_nil filled
    refine ⟨_, .inl rfl, rfl, first, left, batch, slots, producing, ?_⟩
    dsimp only
    rw [consumed, at_first, slots.toWindow.first]
    exact .clearing rfl rfl
  | clearing at_first known =>
    obtain ⟨rfl, rfl⟩ := (Prod.mk.injEq ..).mp (Option.some.inj moves)
    obtain ⟨rest, rfl⟩ := List.head?_eq_some_iff.mp known
    have length_le := slots.length_le
    rw [List.length_cons] at length_le
    refine ⟨_, .inr (.act consumed .popped), rfl, place b.size first 1, left, batch, ?_, ?_, ?_⟩
    · dsimp only [SwsrBuffer.write]
      rw [at_first]
      exact slots.pop
    · dsimp only [SwsrBuffer.write]
      rw [Function.update_of_ne (by decide), place_next slots.start_lt length_le]
      exact producing.shorter (Nat.le_succ _)
    · dsimp only [SwsrBuffer.write]
      rw [Function.update_self]
      refine .advancing ?_
      rw [at_first]
      exact SwsrBuffer.advance_eq slots.start_lt
  | advancing before =>
    obtain ⟨rfl, rfl⟩ := (Prod.mk.injEq ..).mp (Option.some.inj moves)
    refine ⟨_, .inl rfl, rfl, first, left, batch, slots, producing, ?_⟩
    dsimp only
    rw [consumed]
    exact .returning before
  | returning at_first => cases moves

end Steps

/-- A call or an answer of the producer keeps the relation. -/
theorem Related.producer {size : Nat} {b : SwsrBuffer α} {producer next : Producer α}
    {consumer : Consumer α} {object : Witnessed Party (List α) (Operation α) (Answer α)}
    {now : Glance (Operation α) (Answer α)} (related : Related size ⟨b, producer, consumer⟩ object)
    (turns : ∀ {first left batch}, Producing size b.pwrite first object.value.length producer left
      batch (object.glance .producer) →
      Producing size b.pwrite first object.value.length next left batch now) :
    Related size ⟨b, next, consumer⟩
      ⟨object.value, Function.update object.glance .producer now⟩ := by
  obtain ⟨sized, first, left, batch, slots, producing, consuming⟩ := related
  refine ⟨sized, first, left, batch, slots, ?_, ?_⟩
  · dsimp only
    rw [Function.update_self]
    exact turns producing
  · dsimp only
    rw [Function.update_of_ne (by decide)]
    exact consuming

/-- A call or an answer of the consumer keeps the relation. -/
theorem Related.consumer {size : Nat} {b : SwsrBuffer α} {producer : Producer α}
    {consumer next : Consumer α} {object : Witnessed Party (List α) (Operation α) (Answer α)}
    {now : Glance (Operation α) (Answer α)} (related : Related size ⟨b, producer, consumer⟩ object)
    (turns : ∀ {first}, Consuming size b.pread first object.value consumer
      (object.glance .consumer) → Consuming size b.pread first object.value next now) :
    Related size ⟨b, producer, next⟩
      ⟨object.value, Function.update object.glance .consumer now⟩ := by
  obtain ⟨sized, first, left, batch, slots, producing, consuming⟩ := related
  refine ⟨sized, first, left, batch, slots, ?_, ?_⟩
  · dsimp only
    rw [Function.update_of_ne (by decide)]
    exact producing
  · dsimp only
    rw [Function.update_self]
    exact turns consuming

/-- Every step is matched by at most one step of the bounded queue. -/
theorem step_matched {size : Nat} (state : Channel α)
    (event : Option (Event Party (Operation α) (Answer α))) (next : Channel α)
    (object : Witnessed Party (List α) (Operation α) (Answer α))
    (related : Related size state object) (moves : Step state event next) :
    ∃ object', (object' = object ∧ event = none ∨
      Witnessed.Step (Bounded size) object event object') ∧ Related size next object' := by
  obtain ⟨-, first, left, batch, -, producing, consuming⟩ := id related
  cases moves with
  | push data =>
    refine ⟨_, .inr (.call producing.of_idle.2.2), related.producer fun known => ?_⟩
    obtain ⟨at_end, rfl, -⟩ := known.of_idle
    exact .pushing at_end
  | multipush data filled =>
    refine ⟨_, .inr (.call producing.of_idle.2.2), related.producer fun known => ?_⟩
    obtain ⟨at_end, rfl, -⟩ := known.of_idle
    exact .batching at_end filled
  | produce moves =>
    obtain ⟨object', same | acts, related'⟩ := produce_matched moves related
    · exact ⟨object', .inl ⟨same, rfl⟩, related'⟩
    · exact ⟨object', .inr acts, related'⟩
  | pushed =>
    refine ⟨_, .inr (.answer producing.of_returning.2.2), related.producer fun known => ?_⟩
    obtain ⟨at_end, rfl, -⟩ := known.of_returning
    exact .idle at_end
  | pop =>
    exact ⟨_, .inr (.call consuming.of_idle.2), related.consumer fun known =>
      .popping known.of_idle.1⟩
  | consume moves =>
    obtain ⟨object', same | acts, related'⟩ := consume_matched moves related
    · exact ⟨object', .inl ⟨same, rfl⟩, related'⟩
    · exact ⟨object', .inr acts, related'⟩
  | popped =>
    exact ⟨_, .inr (.answer consuming.of_returning.2), related.consumer fun known =>
      .idle known.of_returning.1⟩

/-- The buffer of the constructor stands for the empty queue. -/
theorem init_related {size : Nat} {startatlineend : Bool} {b : SwsrBuffer α}
    (made : SwsrBuffer.init size startatlineend = some b)
    (wide : startatlineend = true → longxCacheLine ≤ size) :
    Related size ⟨b, .idle, .idle⟩ (Witnessed.fresh []) := by
  unfold SwsrBuffer.init at made
  split_ifs at made with none_at_all
  obtain rfl := Option.some.inj made
  have first_lt : (if startatlineend then longxCacheLine - 1 else 0) < size := by
    cases startatlineend with
    | false => exact Nat.pos_of_ne_zero none_at_all
    | true => exact lt_of_lt_of_le (by decide) (wide rfl)
  exact ⟨rfl, _, 0, [], .empty first_lt, .idle (place_zero first_lt).symm, .idle rfl⟩

end Channel

/-- Whatever the interleaving, the calls of one producer and one consumer answer as those of a
queue of at most `size` entries do that take effect at once; a batch goes in as a whole. -/
theorem swsrBuffer_linearizable (size : Nat) (startatlineend : Bool) (b : SwsrBuffer α)
    (made : SwsrBuffer.init size startatlineend = some b)
    (wide : startatlineend = true → longxCacheLine ≤ size) :
    Linearizable (Bounded size) ([] : List α) Channel.Step ⟨b, .idle, .idle⟩ :=
  Witnessed.linearizable (Channel.Related size) (Channel.init_related made wide)
    Channel.step_matched

/-- A buffer of three cells. -/
theorem swsrBuffer_three :
    Linearizable (Bounded 3) ([] : List Nat) Channel.Step
      ⟨⟨0, 0, 3, fun _ => none⟩, .idle, .idle⟩ :=
  swsrBuffer_linearizable 3 false _ rfl (by decide)

/-- Outside of the calls `length` is the length of the queue. -/
theorem Channel.Related.length_eq {size : Nat} {b : SwsrBuffer α}
    {object : Witnessed Party (List α) (Operation α) (Answer α)}
    (related : Channel.Related size ⟨b, .idle, .idle⟩ object) : b.length = object.value.length := by
  obtain ⟨rfl, first, left, batch, slots, producing, consuming⟩ := related
  obtain ⟨at_end, rfl, -⟩ := producing.of_idle
  obtain ⟨at_first, -⟩ := consuming.of_idle
  have tested := slots.end_isNone
  have first_lt := slots.start_lt
  have length_le := slots.length_le
  dsimp only at at_end at_first tested first_lt length_le
  rw [← at_end] at tested
  unfold SwsrBuffer.length
  simp only [tested, at_first]
  unfold place at at_end
  split_ifs at at_end ⊢ <;> omega

/-- Where no call is under way, `length` is the number of entries of the queue that answers the
calls of the run. -/
theorem swsrBuffer_length (size : Nat) (startatlineend : Bool) (b b' : SwsrBuffer α)
    (made : SwsrBuffer.init size startatlineend = some b)
    (wide : startatlineend = true → longxCacheLine ≤ size)
    (history : List (Event Party (Operation α) (Answer α)))
    (run : History Channel.Step ⟨b, .idle, .idle⟩ history ⟨b', .idle, .idle⟩) :
    ∃ object, History (Object.Step (Bounded size)) (Object.fresh []) history object ∧
      b'.length = object.value.length := by
  obtain ⟨object, related, reference⟩ := Witnessed.matched (Channel.init_related made wide)
    Channel.step_matched run
  exact ⟨_, reference, related.length_eq⟩

/-- The buffer after one `push` of a run. -/
theorem swsrBuffer_length_push :
    ∃ object, History (Object.Step (Bounded 3)) (Object.fresh ([] : List Nat))
      [.call Party.producer (.push 7), .answer Party.producer (.pushed true)] object ∧
      (⟨0, 1, 3, Function.update (fun _ => none) 0 (some 7)⟩ : SwsrBuffer Nat).length =
        object.value.length :=
  swsrBuffer_length 3 false ⟨0, 0, 3, fun _ => none⟩ _ rfl (by decide) _
    (((((History.start.step (Channel.Step.push 7)).step (Channel.Step.produce rfl)).step
      (Channel.Step.produce rfl)).step (Channel.Step.produce rfl)).step Channel.Step.pushed)

end P3arsec.Fastflow
