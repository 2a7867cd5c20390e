import P3arsec.Dedup.RingBuffer
import P3arsec.Lib.Run

/-!
# The queue on its ring buffer

`queue_enqueue` and `queue_dequeue` move batches between a ring buffer of the caller and the one of
the queue, and `queue_terminate` counts the producers that are done. A call holds the mutex from
the last test of its waiting loop to its end, so it is one step, which is possible when the loop
ends. `Fifo` is what the queue is for: bounded lists and the set of the producers that are done. In
each run of the queue the calls return what they return in a run of `Fifo`.
-/

namespace P3arsec.Dedup

open P3arsec.Lib

variable {α : Type}

/-- The outcome of a call. -/
inductive Call (σ : Type) where
  /-- An assertion fails, or the behaviour is undefined. -/
  | fault
  /-- The call waits. -/
  | waits
  /-- The call returns. -/
  | returns (result : σ)

/-- The loop of a batch between two ring buffers, with the number of elements that it moves. -/
def move (test : Ring α → Ring α → Option Bool) :
    Nat → Ring α → Ring α → Option (Nat × Ring α × Ring α)
  | 0, source, target => some (0, source, target)
  | limit + 1, source, target => do
    let more ← test source target
    if more then
      let (temp, source) ← source.remove
      let temp ← temp
      let (rv, target) ← target.insert temp
      guard rv
      let (i, source, target) ← move test limit source target
      return (i + 1, source, target)
    else return (0, source, target)

/-- `!ringbuffer_isEmpty(&que->buf) && !ringbuffer_isFull(buf)`. -/
def dequeueTest (source target : Ring α) : Option Bool :=
  if source.isEmpty then some false else target.isFull.map fun full => !full

/-- `!ringbuffer_isFull(&que->buf) && !ringbuffer_isEmpty(buf)`. -/
def enqueueTest (source target : Ring α) : Option Bool :=
  target.isFull.map fun full => !full && !source.isEmpty

/-- `queue_t` with its ring buffer. -/
structure RingQueue (α : Type) where
  /-- `buf`. -/
  buf : Ring α
  /-- `nProducers`. -/
  nProducers : Nat
  /-- `nTerminated`. -/
  nTerminated : Nat

namespace RingQueue

/-- `queue_init`. -/
def init (garbage : Nat → Option α) (size nProducers : Nat) : RingQueue α :=
  ⟨Ring.init garbage size, nProducers, 0⟩

variable (que : RingQueue α)

/-- `queue_isTerminated`. -/
def isTerminated : Option Bool := do
  guard (que.nTerminated ≤ que.nProducers)
  return que.nTerminated == que.nProducers

/-- `queue_terminate`. -/
def terminate : Call (RingQueue α) :=
  if que.nTerminated + 1 ≤ que.nProducers then
    .returns { que with nTerminated := que.nTerminated + 1 }
  else .fault

/-- `queue_dequeue`. -/
def dequeue (buf : Ring α) (limit : Int) : Call (Int × RingQueue α × Ring α) :=
  if que.buf.isEmpty then
    match que.isTerminated with
    | none => .fault
    | some true => .returns (-1, que, buf)
    | some false => .waits
  else
    match move dequeueTest limit.toNat que.buf buf with
    | none => .fault
    | some (i, source, target) => .returns (i, { que with buf := source }, target)

/-- `queue_enqueue`. -/
def enqueue (buf : Ring α) (limit : Int) : Call (Int × RingQueue α × Ring α) :=
  match que.isTerminated, que.buf.isFull with
  | some false, some true => .waits
  | some false, some false =>
    match move enqueueTest limit.toNat buf que.buf with
    | none => .fault
    | some (i, source, target) => .returns (i, { que with buf := target }, source)
  | _, _ => .fault

end RingQueue

/-- The number of elements that a batch moves into some room. -/
def batch (limit : Int) (source : List α) (room : Nat) : Nat :=
  min limit.toNat (min source.length room)

/-- The test of a batch, on the lists that two buffers hold. -/
def Tests (test : Ring α → Ring α → Option Bool) : Prop :=
  ∀ source target held held', source.Holds held → target.Holds held' →
    test source target = some (!held.isEmpty && decide (held'.length ≠ target.capacity))

/-- The test of a dequeue decides whether it waits. -/
theorem dequeueTest_tests : Tests (@dequeueTest α) := by
  intro source target held held' holds holds'
  rw [dequeueTest, holds.isEmpty_eq, holds'.isFull_eq]
  cases held <;> simp

/-- The test of an enqueue decides whether it waits. -/
theorem enqueueTest_tests : Tests (@enqueueTest α) := by
  intro source target held held' holds holds'
  rw [enqueueTest, holds.isEmpty_eq, holds'.isFull_eq]
  cases held <;> simp

/-- One turn of the loop. -/
theorem move_succ {test : Ring α → Ring α → Option Bool} (limit : Nat)
    {source target source' target' : Ring α} {x : α} (goes : test source target = some true)
    (removes : source.remove = some (some x, source'))
    (inserts : target.insert x = some (true, target')) :
    move test (limit + 1) source target =
      (move test limit source' target').map fun done => (done.1 + 1, done.2) := by
  simp only [move, goes, removes, inserts, Option.bind_eq_bind, Option.bind_some, if_true, guard]
  cases move test limit source' target' <;> rfl

/-- The loop with one turn. -/
theorem move_one {test : Ring α → Ring α → Option Bool} {source target source' target' : Ring α}
    {x : α} (goes : test source target = some true)
    (removes : source.remove = some (some x, source'))
    (inserts : target.insert x = some (true, target')) :
    move test 1 source target = some (1, source', target') :=
  move_succ 0 goes removes inserts

/-- A batch moves the first elements of a buffer behind those of the other, as many as the limit and
the room allow. -/
theorem move_eq {test : Ring α → Ring α → Option Bool} (tests : Tests test) (limit : Nat)
    {source target : Ring α} {held held' : List α} (valid : source.Valid held)
    (valid' : target.Valid held') :
    ∃ source' target', move test limit source target =
        some (batch limit held (target.capacity - held'.length), source', target') ∧
      source'.Valid (held.drop (batch limit held (target.capacity - held'.length))) ∧
      target'.Valid (held' ++ held.take (batch limit held (target.capacity - held'.length))) ∧
      source'.size = source.size ∧ target'.size = target.size := by
  unfold batch
  induction limit generalizing source target held held' with
  | zero => simpa [move] using ⟨valid, valid'⟩
  | succ limit ih =>
    have bound := valid'.length_le
    cases held with
    | nil => simpa [move, tests _ _ _ _ valid.toHolds valid'.toHolds] using ⟨valid, valid'⟩
    | cons x rest =>
      by_cases full : held'.length = target.capacity
      · simpa [move, tests _ _ _ _ valid.toHolds valid'.toHolds, full] using ⟨valid, valid'⟩
      · obtain ⟨taken, removes, left, size, -⟩ := valid.remove_cons
        obtain ⟨grown, inserts, more, size', -⟩ := valid'.insert_append (by omega) x
        obtain ⟨source', target', moves, rest', held'', sizes⟩ := ih left more
        have room : grown.capacity - (held' ++ [x]).length + 1 =
            target.capacity - held'.length := by
          rw [Ring.capacity, size', List.length_append, List.length_singleton]
          change target.capacity - (held'.length + 1) + 1 = _
          omega
        have count : min ((limit + 1 : Nat) : Int).toNat
            (min (x :: rest).length (target.capacity - held'.length)) =
              min (limit : Int).toNat
                (min rest.length (grown.capacity - (held' ++ [x]).length)) + 1 := by
          rw [← room, List.length_cons, Int.toNat_natCast, Int.toNat_natCast]
          omega
        rw [count, List.drop_succ_cons, List.take_succ_cons]
        rw [List.append_assoc, List.singleton_append] at held''
        refine ⟨source', target', ?_, rest', held'', sizes.1.trans size, sizes.2.trans size'⟩
        have goes : test source target = some true := by
          rw [tests _ _ _ _ valid.toHolds valid'.toHolds]
          simp [full]
        rw [move_succ limit goes removes inserts, moves]
        rfl

/-- What a call returns. -/
inductive Answer (α : Type) where
  /-- A number. -/
  | count (i : Int)
  /-- An element, or a null pointer. -/
  | pointer (ptr : Option α)
  /-- Nothing. -/
  | void

/-- A call of one of the threads that use the queue; `n` is the number of producers. -/
inductive Action (n : Nat) (β α : Type) where
  /-- `queue_enqueue` of a producer from one of the buffers. -/
  | enqueue (producer : Fin n) (buf : β) (limit : Int)
  /-- `queue_dequeue` to one of the buffers. -/
  | dequeue (buf : β) (limit : Int)
  /-- `queue_terminate` of a producer. -/
  | terminate (producer : Fin n)
  /-- `ringbuffer_insert` to a buffer of a thread. -/
  | insert (buf : β) (ptr : α)
  /-- `ringbuffer_remove` from a buffer of a thread. -/
  | remove (buf : β)

/-- The queue with the buffers of the threads that use it. -/
structure System (β α : Type) where
  /-- The queue. -/
  que : RingQueue α
  /-- The ring buffers of the threads. -/
  bufs : β → Ring α

/-- The abstract queue: bounded lists. -/
structure Fifo (n : Nat) (β α : Type) where
  /-- The elements in the queue, oldest first. -/
  held : List α
  /-- The elements in the buffers of the threads. -/
  bufs : β → List α
  /-- The producers that have called `queue_terminate`. -/
  ended : Finset (Fin n)
  /-- Everything that has been put into the queue, in order. -/
  entered : List α
  /-- Everything that has been taken out of the queue, in order. -/
  left : List α

variable {n : Nat} {β : Type} [DecidableEq β]

namespace System

/-- The system that begins with some buffers. -/
def init (garbage : Nat → Option α) (size n : Nat) (bufs : β → Ring α) : System β α :=
  ⟨RingQueue.init garbage size n, bufs⟩

/-- A call of a thread. -/
def perform (sys : System β α) : Action n β α → Call (Answer α × System β α)
  | .enqueue _ b limit =>
    match sys.que.enqueue (sys.bufs b) limit with
    | .fault => .fault
    | .waits => .waits
    | .returns (i, que, buf) => .returns (.count i, ⟨que, Function.update sys.bufs b buf⟩)
  | .dequeue b limit =>
    match sys.que.dequeue (sys.bufs b) limit with
    | .fault => .fault
    | .waits => .waits
    | .returns (i, que, buf) => .returns (.count i, ⟨que, Function.update sys.bufs b buf⟩)
  | .terminate _ =>
    match sys.que.terminate with
    | .fault => .fault
    | .waits => .waits
    | .returns que => .returns (.void, { sys with que := que })
  | .insert b ptr =>
    match (sys.bufs b).insert ptr with
    | none => .fault
    | some (rv, buf) =>
      .returns (.count (if rv then 0 else -1), { sys with bufs := Function.update sys.bufs b buf })
  | .remove b =>
    match (sys.bufs b).remove with
    | none => .fault
    | some (ptr, buf) =>
      .returns (.pointer ptr, { sys with bufs := Function.update sys.bufs b buf })

end System

namespace Fifo

/-- The empty queue beside some buffers. -/
def init (bufs : β → List α) : Fifo n β α := ⟨[], bufs, ∅, [], []⟩

/-- A call of a thread on a queue of a size and buffers of some capacities, none while the call
waits. -/
def perform (size : Nat) (room : β → Nat) (fifo : Fifo n β α) :
    Action n β α → Option (Answer α × Fifo n β α)
  | .enqueue _ b limit =>
    if fifo.held.length = size then none
    else
      let i := batch limit (fifo.bufs b) (size - fifo.held.length)
      some (.count i, { fifo with
        held := fifo.held ++ (fifo.bufs b).take i
        bufs := Function.update fifo.bufs b ((fifo.bufs b).drop i)
        entered := fifo.entered ++ (fifo.bufs b).take i })
  | .dequeue b limit =>
    if fifo.held = [] then
      if fifo.ended = Finset.univ then some (.count (-1), fifo) else none
    else
      let i := batch limit fifo.held (room b - (fifo.bufs b).length)
      some (.count i, { fifo with
        held := fifo.held.drop i
        bufs := Function.update fifo.bufs b (fifo.bufs b ++ fifo.held.take i)
        left := fifo.left ++ fifo.held.take i })
  | .terminate producer => some (.void, { fifo with ended := insert producer fifo.ended })
  | .insert b ptr =>
    if (fifo.bufs b).length = room b then some (.count (-1), fifo)
    else some (.count 0, { fifo with bufs := Function.update fifo.bufs b (fifo.bufs b ++ [ptr]) })
  | .remove b =>
    some (.pointer (fifo.bufs b).head?,
      { fifo with bufs := Function.update fifo.bufs b (fifo.bufs b).tail })

/-- A producer that is done makes no call. -/
def Allows (fifo : Fifo n β α) : Action n β α → Prop
  | .enqueue producer _ _ => producer ∉ fifo.ended
  | .terminate producer => producer ∉ fifo.ended
  | _ => True

/-- What has left the queue and what it holds is what has entered it, and it holds no more than its
size. -/
def Ordered (size : Nat) (fifo : Fifo n β α) : Prop :=
  fifo.entered = fifo.left ++ fifo.held ∧ fifo.held.length ≤ size

end Fifo

/-- The system holds the lists of the abstract queue. -/
structure Represents (size : Nat) (room : β → Nat) (sys : System β α) (fifo : Fifo n β α) :
    Prop where
  /-- The ring buffer of the queue. -/
  buf : sys.que.buf.Valid fifo.held
  /-- Its size. -/
  size_eq : sys.que.buf.capacity = size
  /-- The number of producers. -/
  nProducers : sys.que.nProducers = n
  /-- The number of producers that are done. -/
  nTerminated : sys.que.nTerminated = fifo.ended.card
  /-- The buffers of the threads. -/
  bufs : ∀ b, (sys.bufs b).Valid (fifo.bufs b)
  /-- Their capacities. -/
  room_eq : ∀ b, (sys.bufs b).capacity = room b

/-- A call does what the abstract call does. -/
def Matches (size : Nat) (room : β → Nat) (call : Call (Answer α × System β α)) :
    Option (Answer α × Fifo n β α) → Prop
  | none => call = .waits
  | some (answer, fifo) => ∃ sys, call = .returns (answer, sys) ∧ Represents size room sys fifo

namespace Represents

variable {size : Nat} {room : β → Nat} {sys : System β α} {fifo : Fifo n β α}

/-- The queue and one buffer change. -/
theorem update (represents : Represents size room sys fifo) {b : β} {buf target : Ring α}
    {held held' : List α} (valid : target.Valid held) (valid' : buf.Valid held')
    (same : target.size = sys.que.buf.size) (same' : buf.size = (sys.bufs b).size)
    (entered left : List α) :
    Represents size room ⟨{ sys.que with buf := target }, Function.update sys.bufs b buf⟩
      { fifo with
        held := held
        bufs := Function.update fifo.bufs b held'
        entered := entered
        left := left } := by
  refine ⟨valid, ?_, represents.nProducers, represents.nTerminated, fun other => ?_,
    fun other => ?_⟩
  · rw [← represents.size_eq, Ring.capacity, Ring.capacity, same]
  · by_cases here : other = b
    · subst here
      simpa using valid'
    · simpa [here] using represents.bufs other
  · by_cases here : other = b
    · subst here
      show (Function.update sys.bufs other buf other).capacity = room other
      rw [Function.update_self, Ring.capacity, same']
      exact represents.room_eq other
    · simpa [here] using represents.room_eq other

omit [DecidableEq β] in
/-- The queue is terminated when all producers are done. -/
theorem isTerminated_eq (represents : Represents size room sys fifo) :
    sys.que.isTerminated = some (decide (fifo.ended = Finset.univ)) := by
  have all : fifo.ended.card = n ↔ fifo.ended = Finset.univ := by
    rw [← Finset.card_eq_iff_eq_univ, Fintype.card_fin]
  have bound : fifo.ended.card ≤ n := by simpa using Finset.card_le_univ fifo.ended
  rw [RingQueue.isTerminated, represents.nTerminated, represents.nProducers]
  simp only [guard, bound, if_true, ← all, beq_eq_decide]
  rfl

omit [DecidableEq β] in
/-- While a producer is active the queue is not terminated. -/
theorem active (represents : Represents size room sys fifo) {producer : Fin n}
    (active : producer ∉ fifo.ended) : sys.que.isTerminated = some false := by
  rw [represents.isTerminated_eq, decide_eq_false]
  exact fun all => active (all ▸ Finset.mem_univ producer)

/-- An enqueue answers as the FIFO queue does. -/
theorem enqueue_matches (represents : Represents size room sys fifo) {producer : Fin n}
    (active : producer ∉ fifo.ended) (b : β) (limit : Int) :
    Matches size room (sys.perform (.enqueue producer b limit))
      (fifo.perform size room (.enqueue producer b limit)) := by
  have terminated := represents.active active
  have full := represents.buf.isFull_eq
  rw [represents.size_eq] at full
  rw [Fifo.perform]
  by_cases wait : fifo.held.length = size
  · rw [if_pos wait]
    simp only [Matches, System.perform, RingQueue.enqueue, terminated, full, wait, decide_true]
  · obtain ⟨source, target, moves, left, grown, sizes⟩ :=
      move_eq enqueueTest_tests limit.toNat (represents.bufs b) represents.buf
    rw [represents.size_eq, batch, Int.toNat_natCast, ← batch] at moves left grown
    rw [if_neg wait]
    refine ⟨_, ?_, represents.update grown left sizes.2 sizes.1 _ _⟩
    simp only [System.perform, RingQueue.enqueue, terminated, full, wait, decide_false, moves]

/-- A dequeue answers as the FIFO queue does. -/
theorem dequeue_matches (represents : Represents size room sys fifo) (b : β) (limit : Int) :
    Matches size room (sys.perform (.dequeue b limit : Action n β α))
      (fifo.perform size room (.dequeue b limit)) := by
  have empty := represents.buf.isEmpty_eq
  have terminated := represents.isTerminated_eq
  rw [Fifo.perform]
  by_cases nothing : fifo.held = []
  · rw [if_pos nothing]
    rw [nothing] at empty
    by_cases done : fifo.ended = Finset.univ
    · rw [if_pos done]
      refine ⟨sys, ?_, represents⟩
      simp only [System.perform, RingQueue.dequeue, empty, terminated, done, List.isEmpty_nil,
        decide_true, if_true]
      rw [Function.update_eq_self]
    · rw [if_neg done]
      simp only [Matches, System.perform, RingQueue.dequeue, empty, terminated, done,
        List.isEmpty_nil, decide_false, if_true]
  · have some : fifo.held.isEmpty = false := by simpa using nothing
    obtain ⟨source, target, moves, left, grown, sizes⟩ :=
      move_eq dequeueTest_tests limit.toNat represents.buf (represents.bufs b)
    rw [represents.room_eq, batch, Int.toNat_natCast, ← batch] at moves left grown
    rw [if_neg nothing]
    refine ⟨_, ?_, represents.update left grown sizes.1 sizes.2 _ _⟩
    simp only [System.perform, RingQueue.dequeue, empty, some, moves, Bool.false_eq_true, if_false]

/-- An end answers as that of the FIFO queue does. -/
theorem terminate_matches (represents : Represents size room sys fifo) {producer : Fin n}
    (active : producer ∉ fifo.ended) :
    Matches size room (sys.perform (.terminate producer))
      (fifo.perform size room (.terminate producer)) := by
  have count := Finset.card_insert_of_notMem active
  have bound : (insert producer fifo.ended).card ≤ n := by
    simpa using Finset.card_le_univ (insert producer fifo.ended)
  have allowed : sys.que.nTerminated + 1 ≤ sys.que.nProducers := by
    rw [represents.nTerminated, represents.nProducers, ← count]
    exact bound
  refine ⟨{ sys with que := { sys.que with nTerminated := sys.que.nTerminated + 1 } }, ?_, ?_⟩
  · simp only [System.perform, RingQueue.terminate, allowed, if_true]
  · refine { represents with nTerminated := ?_ }
    show sys.que.nTerminated + 1 = (insert producer fifo.ended).card
    rw [count, represents.nTerminated]

/-- An insertion into a local buffer answers as that of the FIFO queue does. -/
theorem insert_matches (represents : Represents size room sys fifo) (b : β) (ptr : α) :
    Matches size room (sys.perform (.insert b ptr : Action n β α))
      (fifo.perform size room (.insert b ptr)) := by
  have valid := represents.bufs b
  rw [Fifo.perform]
  by_cases full : (fifo.bufs b).length = room b
  · have fails := valid.insert_full (full.trans (represents.room_eq b).symm) ptr
    rw [if_pos full]
    refine ⟨sys, ?_, represents⟩
    simp only [System.perform, fails, Bool.false_eq_true, if_false]
    rw [Function.update_eq_self]
  · have bound := valid.length_le
    rw [represents.room_eq] at bound
    obtain ⟨after, inserts, grown, same, -⟩ := valid.insert_append
      (by rw [represents.room_eq]; exact lt_of_le_of_ne bound full) ptr
    rw [if_neg full]
    refine ⟨_, ?_, represents.update represents.buf grown rfl same _ _⟩
    simp only [System.perform, inserts, if_true]

/-- A removal from a local buffer answers as that of the FIFO queue does. -/
theorem remove_matches (represents : Represents size room sys fifo) (b : β) :
    Matches size room (sys.perform (.remove b : Action n β α))
      (fifo.perform size room (.remove b)) := by
  have valid := represents.bufs b
  rw [Fifo.perform]
  cases held : fifo.bufs b with
  | nil =>
    rw [held] at valid
    refine ⟨_, ?_, represents.update represents.buf valid rfl rfl _ _⟩
    simp only [System.perform, valid.remove_nil]
    rfl
  | cons x rest =>
    rw [held] at valid
    obtain ⟨after, removes, left, same, -⟩ := valid.remove_cons
    refine ⟨_, ?_, represents.update represents.buf left rfl same _ _⟩
    simp only [System.perform, removes]
    rfl

/-- A call of a producer that is not done, or of a consumer, does what the abstract call does. -/
theorem perform_matches (represents : Represents size room sys fifo) {action : Action n β α}
    (allowed : fifo.Allows action) :
    Matches size room (sys.perform action) (fifo.perform size room action) := by
  cases action with
  | enqueue producer b limit => exact represents.enqueue_matches allowed b limit
  | dequeue b limit => exact represents.dequeue_matches b limit
  | terminate producer => exact represents.terminate_matches allowed
  | insert b ptr => exact represents.insert_matches b ptr
  | remove b => exact represents.remove_matches b

end Represents

/-- A call of the trace is the last one of its producer. -/
def EndedIn (trace : List (Action n β α × Answer α)) (producer : Fin n) : Prop :=
  ∃ event ∈ trace, event.1 = .terminate producer

/-- A producer that has called `queue_terminate` makes no further call for the queue. -/
def Allows (trace : List (Action n β α × Answer α)) : Action n β α → Prop
  | .enqueue producer _ _ => ¬EndedIn trace producer
  | .terminate producer => ¬EndedIn trace producer
  | _ => True

/-- What a call answers: nothing when it faults, and no answer while it waits. -/
def Call.answer {ω σ : Type} : Call (ω × σ) → Option (Option ω)
  | .fault => none
  | .waits => some none
  | .returns result => some (some result.1)

/-- A call that returns. -/
def System.act (sys : System β α) (action : Action n β α) : Option (Answer α × System β α) :=
  match sys.perform action with
  | .returns result => some result
  | _ => none

/-- In every run on a queue of some size the calls return what they return in a run of the bounded
lists: what has left the queue and what it holds is what has entered it, in order, the queue holds
no more than its size, no call faults, a call waits when the abstract one does, and
`queue_dequeue` returns -1 only when the queue is empty and all producers are done. -/
def RefinesFifo (n : Nat) (β α : Type) [DecidableEq β] (size : Nat) : Prop :=
  ∀ (garbage : Nat → Option α) (bufs : β → Ring α) (contents : β → List α),
    (∀ b, (bufs b).Valid (contents b)) →
  ∀ (trace : List (Action n β α × Answer α)) (sys : System β α),
    Traced Allows System.act (System.init garbage size n bufs) trace sys →
  ∃ fifo : Fifo n β α,
    Traced Allows (Fifo.perform size fun b => (bufs b).capacity) (Fifo.init contents) trace fifo ∧
    sys.que.buf.Holds fifo.held ∧ (∀ b, (sys.bufs b).Holds (fifo.bufs b)) ∧
    fifo.entered = fifo.left ++ fifo.held ∧ fifo.held.length ≤ size ∧
    (∀ producer, producer ∈ fifo.ended ↔ EndedIn trace producer) ∧
    (∀ action, Allows trace action → (sys.perform action).answer =
      some ((fifo.perform size (fun b => (bufs b).capacity) action).map Prod.fst)) ∧
    ∀ b limit sys', sys.act (.dequeue b limit : Action n β α) = some (.count (-1), sys') →
      fifo.held = [] ∧ ∀ producer, EndedIn trace producer

namespace Fifo

variable {size : Nat} {room : β → Nat} {fifo next : Fifo n β α} {action : Action n β α}
variable {answer : Answer α}

/-- A call keeps the order, and the queue holds no more than its size. -/
theorem Ordered.perform (ordered : fifo.Ordered size)
    (acts : fifo.perform size room action = some (answer, next)) : next.Ordered size := by
  obtain ⟨order, bound⟩ := ordered
  cases action with
  | enqueue producer b limit =>
    rw [Fifo.perform] at acts
    split at acts
    · exact nomatch acts
    · obtain ⟨-, rfl⟩ := Prod.mk.inj (Option.some.inj acts)
      refine ⟨?_, ?_⟩
      · rw [order, List.append_assoc]
      · rw [List.length_append, List.length_take, batch]
        omega
  | dequeue b limit =>
    rw [Fifo.perform] at acts
    split at acts
    · split at acts
      · obtain ⟨-, rfl⟩ := Prod.mk.inj (Option.some.inj acts)
        exact ⟨order, bound⟩
      · exact nomatch acts
    · obtain ⟨-, rfl⟩ := Prod.mk.inj (Option.some.inj acts)
      refine ⟨?_, ?_⟩
      · rw [List.append_assoc, List.take_append_drop]
        exact order
      · rw [List.length_drop]
        omega
  | terminate producer =>
    obtain ⟨-, rfl⟩ := Prod.mk.inj (Option.some.inj acts)
    exact ⟨order, bound⟩
  | insert b ptr =>
    rw [Fifo.perform] at acts
    split at acts
    all_goals
      obtain ⟨-, rfl⟩ := Prod.mk.inj (Option.some.inj acts)
      exact ⟨order, bound⟩
  | remove b =>
    obtain ⟨-, rfl⟩ := Prod.mk.inj (Option.some.inj acts)
    exact ⟨order, bound⟩

/-- Only `queue_terminate` changes the producers that are done. -/
theorem ended_perform (acts : fifo.perform size room action = some (answer, next))
    (producer : Fin n) :
    producer ∈ next.ended ↔ producer ∈ fifo.ended ∨ action = .terminate producer := by
  cases action with
  | enqueue caller b limit =>
    rw [Fifo.perform] at acts
    split at acts
    · exact nomatch acts
    · obtain ⟨-, rfl⟩ := Prod.mk.inj (Option.some.inj acts)
      simp
  | dequeue b limit =>
    rw [Fifo.perform] at acts
    split at acts
    · split at acts
      · obtain ⟨-, rfl⟩ := Prod.mk.inj (Option.some.inj acts)
        simp
      · exact nomatch acts
    · obtain ⟨-, rfl⟩ := Prod.mk.inj (Option.some.inj acts)
      simp
  | terminate caller =>
    obtain ⟨-, rfl⟩ := Prod.mk.inj (Option.some.inj acts)
    rw [Finset.mem_insert, or_comm, Action.terminate.injEq, eq_comm]
  | insert b ptr =>
    rw [Fifo.perform] at acts
    split at acts
    all_goals
      obtain ⟨-, rfl⟩ := Prod.mk.inj (Option.some.inj acts)
      simp
  | remove b =>
    obtain ⟨-, rfl⟩ := Prod.mk.inj (Option.some.inj acts)
    simp

/-- `queue_dequeue` returns -1 only on an empty queue whose producers are all done. -/
theorem dequeue_done {b : β} {limit : Int}
    (acts : fifo.perform size room (.dequeue b limit) = some (.count (-1), next)) :
    fifo.held = [] ∧ fifo.ended = Finset.univ := by
  rw [Fifo.perform] at acts
  split at acts
  · rename_i empty
    split at acts
    · rename_i done
      exact ⟨empty, done⟩
    · exact nomatch acts
  · have number := Answer.count.inj (Prod.mk.inj (Option.some.inj acts)).1
    omega

end Fifo

omit [DecidableEq β] in
/-- A producer has ended when it ended before or ends now. -/
theorem endedIn_append {trace : List (Action n β α × Answer α)} {action : Action n β α}
    {answer : Answer α} {producer : Fin n} :
    EndedIn (trace ++ [(action, answer)]) producer ↔
      EndedIn trace producer ∨ action = .terminate producer := by
  simp [EndedIn, or_and_right, exists_or]

/-- What the abstract queue knows of the trace. -/
structure Follows (size : Nat) (room : β → Nat) (trace : List (Action n β α × Answer α))
    (sys : System β α) (fifo : Fifo n β α) : Prop where
  /-- The system holds its lists. -/
  represents : Represents size room sys fifo
  /-- They are in order. -/
  ordered : fifo.Ordered size
  /-- The producers that are done. -/
  ended : ∀ producer, producer ∈ fifo.ended ↔ EndedIn trace producer

namespace Follows

variable {size : Nat} {room : β → Nat} {trace : List (Action n β α × Answer α)}
variable {sys next : System β α} {fifo : Fifo n β α} {action : Action n β α} {answer : Answer α}

/-- A call that the trace allows does what the abstract call does. -/
theorem perform_matches (follows : Follows size room trace sys fifo)
    (allowed : Allows trace action) :
    Matches size room (sys.perform action) (fifo.perform size room action) := by
  refine follows.represents.perform_matches ?_
  cases action with
  | enqueue producer b limit => exact fun ended => allowed ((follows.ended producer).mp ended)
  | terminate producer => exact fun ended => allowed ((follows.ended producer).mp ended)
  | dequeue b limit => trivial
  | insert b ptr => trivial
  | remove b => trivial

/-- The next answer is that of the FIFO queue. -/
theorem answer_eq (follows : Follows size room trace sys fifo) (allowed : Allows trace action) :
    (sys.perform action).answer = some ((fifo.perform size room action).map Prod.fst) := by
  have matched := follows.perform_matches allowed
  cases result : fifo.perform size room action with
  | none =>
    rw [result] at matched
    rw [show sys.perform action = .waits from matched]
    rfl
  | some done =>
    rw [result] at matched
    obtain ⟨sys', returns, -⟩ := matched
    rw [returns]
    rfl

/-- A call that returns is matched by the abstract call. -/
theorem act (follows : Follows size room trace sys fifo) (allowed : Allows trace action)
    (acts : sys.act action = some (answer, next)) :
    ∃ fifo', fifo.perform size room action = some (answer, fifo') ∧
      Follows size room (trace ++ [(action, answer)]) next fifo' := by
  have matched := follows.perform_matches allowed
  rw [System.act] at acts
  cases result : fifo.perform size room action with
  | none =>
    rw [result] at matched
    rw [show sys.perform action = .waits from matched] at acts
    exact nomatch acts
  | some done =>
    obtain ⟨answer', fifo'⟩ := done
    rw [result] at matched
    obtain ⟨sys', returns, represents⟩ := matched
    rw [returns] at acts
    obtain ⟨rfl, rfl⟩ := Prod.mk.inj (Option.some.inj acts)
    refine ⟨fifo', rfl, represents, follows.ordered.perform result, fun producer => ?_⟩
    rw [Fifo.ended_perform result, endedIn_append, follows.ended]

end Follows

/-- The queue refines a bounded FIFO when its capacity is below `INT_MAX`. -/
theorem queue_refines {size : Nat} (small : size < intMax) (n : Nat) :
    RefinesFifo n β α size := by
  intro garbage bufs contents valid trace sys traced
  have begins : Follows size (fun b => (bufs b).capacity) ([] : List (Action n β α × Answer α))
      (System.init garbage size n bufs) (Fifo.init contents) := by
    refine ⟨⟨Ring.init_valid garbage small, ?_, rfl, rfl, valid, fun _ => rfl⟩,
      ⟨rfl, Nat.zero_le _⟩, fun producer => by simp [Fifo.init, EndedIn]⟩
    show (size + 1) % 2 ^ 64 - 1 = size
    simp only [intMax] at small
    omega
  obtain ⟨fifo, traced', follows⟩ := traced.simulated begins
    fun _ _ _ _ _ _ follows allowed acts => follows.act allowed acts
  refine ⟨fifo, traced', follows.represents.buf.toHolds,
    fun b => (follows.represents.bufs b).toHolds, follows.ordered.1, follows.ordered.2,
    follows.ended, fun action allowed => follows.answer_eq allowed, ?_⟩
  intro b limit sys' acts
  have allowed : Allows trace (.dequeue b limit : Action n β α) := trivial
  obtain ⟨fifo', result, -⟩ := follows.act allowed acts
  obtain ⟨empty, done⟩ := Fifo.dequeue_done result
  exact ⟨empty, fun producer => (follows.ended producer).mp (done ▸ Finset.mem_univ producer)⟩

/-- A call of `queue_enqueue` that does not wait. -/
theorem System.act_enqueue (sys : System β α) (producer : Fin n) (b : β) (limit : Int) {i : Nat}
    {source target : Ring α} (active : sys.que.isTerminated = some false)
    (room : sys.que.buf.isFull = some false)
    (moves : move enqueueTest limit.toNat (sys.bufs b) sys.que.buf = some (i, source, target)) :
    sys.act (.enqueue producer b limit) = some (.count i,
      ⟨{ sys.que with buf := target }, Function.update sys.bufs b source⟩) := by
  simp only [System.act, System.perform, RingQueue.enqueue, active, room, moves]

/-- A call of `queue_dequeue` on a queue that is not empty. -/
theorem System.act_dequeue (sys : System β α) (n : Nat) (b : β) (limit : Int) {i : Nat}
    {source target : Ring α} (some : sys.que.buf.isEmpty = false)
    (moves : move dequeueTest limit.toNat sys.que.buf (sys.bufs b) =
      Option.some (i, source, target)) :
    sys.act (.dequeue b limit : Action n β α) = Option.some (.count i,
      ⟨{ sys.que with buf := source }, Function.update sys.bufs b target⟩) := by
  simp only [System.act, System.perform, RingQueue.dequeue, some, moves, Bool.false_eq_true,
    if_false]

/-- The queues of the program are small enough. -/
theorem queue_refines_sample :
    1024 * 1024 < intMax ∧ RefinesFifo 2 Bool Nat (1024 * 1024) :=
  ⟨by decide, queue_refines (by decide) 2⟩

/-- The element of the buffers goes round through the queue; after some rounds the positions of the
queue have moved as far. -/
structure Turned (size k : Nat) (b : β) (x : α) (trace : List (Action (n + 1) β α × Answer α))
    (sys : System β α) : Prop where
  /-- The queue is empty. -/
  holds : sys.que.buf.Holds []
  /-- The size of its buffer. -/
  size_eq : sys.que.buf.size = size + 1
  /-- The tail has moved. -/
  tail_eq : sys.que.buf.tail = k
  /-- The number of producers. -/
  nProducers : sys.que.nProducers = n + 1
  /-- No producer is done. -/
  nTerminated : sys.que.nTerminated = 0
  /-- The buffer holds the element. -/
  valid : (sys.bufs b).Valid [x]
  /-- No producer is done in the trace. -/
  active : ∀ producer, ¬EndedIn trace producer

namespace Turned

variable {size k : Nat} {b : β} {x : α} {trace : List (Action (n + 1) β α × Answer α)}
variable {sys : System β α}

omit [DecidableEq β]

/-- The head has been turned to its place. -/
theorem head_eq (turned : Turned size k b x trace sys) : sys.que.buf.head = k := by
  rw [turned.holds.head_eq, List.length_nil, place_zero turned.holds.window.start_lt,
    turned.tail_eq]

/-- The capacity is the size. -/
theorem capacity_eq (turned : Turned size k b x trace sys) : sys.que.buf.capacity = size := by
  rw [Ring.capacity, turned.size_eq, Nat.add_sub_cancel]

/-- The queue is not terminated. -/
theorem isTerminated_eq (turned : Turned size k b x trace sys) :
    sys.que.isTerminated = some false := by
  simp [RingQueue.isTerminated, turned.nProducers, turned.nTerminated]

/-- The queue is not full. -/
theorem isFull_eq (turned : Turned size k b x trace sys) (room : 0 < size) :
    sys.que.buf.isFull = some false := by
  rw [turned.holds.isFull_eq, turned.capacity_eq, List.length_nil, decide_eq_false room.ne]

/-- The loop of `queue_enqueue` begins. -/
theorem enqueueTest_eq (turned : Turned size k b x trace sys) (room : 0 < size) :
    enqueueTest (sys.bufs b) sys.que.buf = some true := by
  rw [enqueueTest_tests _ _ _ _ turned.valid.toHolds turned.holds, turned.capacity_eq]
  simp [room.ne]

variable [DecidableEq β]

/-- One more round. -/
theorem next (turned : Turned size k b x trace sys) (large : intMax ≤ size) (below : k < intMax) :
    ∃ middle sys' : System β α,
      sys.act (.enqueue 0 b 1 : Action (n + 1) β α) = some (.count 1, middle) ∧
      middle.act (.dequeue b 1 : Action (n + 1) β α) = some (.count 1, sys') ∧
      Turned size (k + 1) b x
        (trace ++ [(.enqueue 0 b 1, .count 1)] ++ [(.dequeue b 1, .count 1)]) sys' := by
  have room : 0 < size := (Nat.zero_lt_of_lt below).trans_le large
  have kept : sys.que.buf.head < intMax := by rwa [turned.head_eq]
  have space : ([] : List α).length < sys.que.buf.capacity := by rwa [turned.capacity_eq]
  obtain ⟨source, removes, taken, sameSource, -⟩ := turned.valid.remove_cons
  obtain ⟨inserts, grown⟩ := turned.holds.insert_append space kept x
  have enters := sys.act_enqueue (0 : Fin (n + 1)) b 1 turned.isTerminated_eq
    (turned.isFull_eq room) (move_one (turned.enqueueTest_eq room) removes inserts)
  have kept' : (sys.que.buf.append [] x).tail < intMax := by
    show sys.que.buf.tail < intMax
    rwa [turned.tail_eq]
  obtain ⟨removes', left⟩ := grown.remove_cons kept'
  have one : 0 < source.capacity := by
    rw [Ring.capacity, sameSource]
    exact Nat.sub_pos_of_lt turned.valid.length_lt
  obtain ⟨target, inserts', given, -, -⟩ := taken.insert_append one x
  have goes : dequeueTest (sys.que.buf.append [] x) source = some true := by
    rw [dequeueTest_tests _ _ _ _ grown taken.toHolds]
    simp [one.ne]
  have given' : Function.update sys.bufs b source b = source := Function.update_self ..
  let middle : System β α :=
    ⟨{ sys.que with buf := sys.que.buf.append [] x }, Function.update sys.bufs b source⟩
  have moves := move_one goes removes' inserts'
  rw [← given'] at moves
  have leaves := middle.act_dequeue (n + 1) b 1 grown.isEmpty_eq moves
  refine ⟨_, _, enters, leaves, left, turned.size_eq, ?_, turned.nProducers, turned.nTerminated,
    ?_, fun producer => ?_⟩
  · show place sys.que.buf.size sys.que.buf.tail 1 = k + 1
    rw [turned.size_eq, turned.tail_eq, place, if_pos (by omega)]
  · simpa using given
  · rw [endedIn_append, endedIn_append]
    simpa using turned.active producer

/-- Where the head has come to `INT_MAX` the next call faults. -/
theorem enqueue_faults (turned : Turned size intMax b x trace sys) (large : intMax ≤ size) :
    sys.perform (.enqueue 0 b 1 : Action (n + 1) β α) = .fault := by
  have room : 0 < size := (show 0 < intMax by decide).trans_le large
  have space : ([] : List α).length < sys.que.buf.capacity := by rwa [turned.capacity_eq]
  obtain ⟨source, removes, -⟩ := turned.valid.remove_cons
  have undefined := turned.holds.insert_undefined space turned.head_eq x
  have moves : move enqueueTest 1 (sys.bufs b) sys.que.buf = none := by
    simp only [move, turned.enqueueTest_eq room, removes, undefined, Option.bind_eq_bind,
      Option.bind_some, Option.bind_none, if_true]
  simp only [System.perform, RingQueue.enqueue, turned.isTerminated_eq, turned.isFull_eq room,
    show (1 : Int).toNat = 1 from rfl, moves]

end Turned

/-- After any number of rounds below `INT_MAX` the positions have moved as far. -/
theorem exists_turned {size : Nat} (large : intMax ≤ size) (fits : size + 1 < 2 ^ 61)
    (garbage : Nat → Option α) (bufs : β → Ring α) {b : β} {x : α} (valid : (bufs b).Valid [x])
    (k : Nat) (bound : k ≤ intMax) :
    ∃ (trace : List (Action (n + 1) β α × Answer α)) (sys : System β α),
      Traced Allows System.act (System.init garbage size (n + 1) bufs) trace sys ∧
      Turned size k b x trace sys := by
  induction k with
  | zero =>
    refine ⟨[], _, .start, Ring.init_holds garbage fits, ?_, rfl, rfl, rfl, valid, ?_⟩
    · exact Nat.mod_eq_of_lt (by omega)
    · simp [EndedIn]
  | succ k ih =>
    obtain ⟨trace, sys, traced, turned⟩ := ih (Nat.le_of_succ_le bound)
    obtain ⟨middle, sys', enters, leaves, turned'⟩ := turned.next large bound
    have first : Allows trace (.enqueue 0 b 1 : Action (n + 1) β α) := turned.active 0
    have second : Allows (trace ++ [(.enqueue 0 b 1, .count 1)])
        (.dequeue b 1 : Action (n + 1) β α) := trivial
    exact ⟨_, _, .step (.step traced first enters) second leaves, turned'⟩

/-- With a larger capacity the queue does not refine a bounded FIFO. -/
theorem not_refinesFifo {size : Nat} (large : intMax ≤ size) (fits : size + 1 < 2 ^ 61) (n : Nat)
    (b : β) (x : α) : ¬RefinesFifo (n + 1) β α size := by
  intro refines
  have empty := Ring.init_valid (fun _ => none : Nat → Option α) (show 1 < intMax by decide)
  obtain ⟨buf, -, valid, -, -⟩ := empty.insert_append (show 0 < (1 + 1) % 2 ^ 64 - 1 by decide) x
  obtain ⟨trace, sys, traced, turned⟩ := exists_turned large fits (fun _ => none)
    (fun _ : β => buf) (b := b) valid intMax le_rfl
  obtain ⟨fifo, -, -, -, -, -, -, answers, -⟩ :=
    refines (fun _ => none) (fun _ => buf) (fun _ => [x]) (fun _ => valid) trace sys traced
  have answer := answers (.enqueue 0 b 1) (turned.active 0)
  rw [turned.enqueue_faults large] at answer
  exact nomatch answer

/-- With the capacity `INT_MAX` a round too many increments the head beyond `INT_MAX`. -/
theorem queue_refines_fails : ¬RefinesFifo 1 Unit Unit (2 ^ 31 - 1) :=
  not_refinesFifo le_rfl (by decide) 0 () ()

end P3arsec.Dedup
