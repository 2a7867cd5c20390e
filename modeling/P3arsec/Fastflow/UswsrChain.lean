import P3arsec.Fastflow.UswsrBuffer

/-!
# The chain of buffers

The buffers of an unbounded buffer form a chain from the one of the consumer, or the one that it is
about to go on to, to the one of the producer, or the one that it has just listed. The queue is what
they hold, one after the other. `Chained` says how they hang together and where every allocated
buffer is; each step of a party keeps it.
-/

namespace P3arsec.Fastflow

open P3arsec.Lib
open P3arsec.Lib.Concurrent

variable {α : Type}

/-- The next buffer that the consumer has taken from the list but not gone on to. -/
def UConsumer.handed : UConsumer α → Option Nat
  | .releasing tmp | .caching tmp | .switching tmp => some tmp
  | _ => none

/-- The consumer's old buffer while `release` has it. -/
def UConsumer.stale : UConsumer α → Nat → List Nat
  | .releasing _, bufR | .caching _, bufR => [bufR]
  | _, _ => []

/-- The buffer that the producer has listed but not gone on to. -/
def UProducer.fresh : UProducer α → List Nat
  | .switching _ t => [t]
  | _ => []

/-- The buffer that the producer is about to list. -/
def UProducer.pending : UProducer α → List Nat
  | .listing _ t => [t]
  | _ => []

/-- The producer has gone on to its buffer and not stored there. -/
def UProducer.newly : UProducer α → Prop
  | .testing _ | .storing _ => True
  | _ => False

/-- The buffers that the consumer has not touched. -/
def UswsrBuffer.rest (u : UswsrBuffer α) (consumer : UConsumer α) : List Nat :=
  consumer.handed.toList ++ u.inuse

/-- The buffers of the queue in their order. -/
def UswsrBuffer.chain (u : UswsrBuffer α) (consumer : UConsumer α) : List Nat :=
  (if consumer.handed = none then [u.bufR] else []) ++ u.rest consumer

/-- A buffer as `reset` leaves it. -/
def SwsrBuffer.blank (size : Nat) : SwsrBuffer α := ⟨0, 0, size, fun _ => none⟩

/-- How the buffers hang together: `held` is what a buffer holds and `first` where that begins. -/
structure Chained (u : UswsrBuffer α) (producer : UProducer α) (consumer : UConsumer α)
    (held : Nat → List α) (first : Nat → Nat) : Prop where
  /-- The producer's buffer is the last one, up to one that it is about to go on to. -/
  writer : ∃ closed, u.chain consumer = closed ++ u.bufW :: producer.fresh
  /-- What the buffers hold. -/
  slots : ∀ a ∈ u.chain consumer, (u.heap a).size = u.size ∧
    Slots u.size (u.heap a).buf (first a) (held a) 0 []
  /-- A buffer that the consumer has not touched is read from its begin. -/
  untouched : ∀ a ∈ u.rest consumer, first a = 0 ∧ (u.heap a).pread = 0
  /-- The consumer meets entries in each of them, unless the producer has just got there. -/
  filled : ∀ a ∈ u.rest consumer,
    held a ≠ [] ∨ a ∈ producer.fresh ∨ a = u.bufW ∧ producer.newly
  /-- No buffer is at two places. -/
  distinct : (u.chain consumer ++ (producer.pending ++ (consumer.stale u.bufR ++
    u.bufcache))).Nodup
  /-- These are the buffers that are allocated. -/
  live : ∀ a, u.free a = false ↔
    a ∈ u.chain consumer ++ (producer.pending ++ (consumer.stale u.bufR ++ u.bufcache))
  /-- A buffer that is ready for use is blank. -/
  blank : ∀ a ∈ producer.pending ++ u.bufcache, u.heap a = .blank u.size

/-- How far the producer's call is. -/
inductive UProducing (u : UswsrBuffer α) (held : Nat → List α) (first : Nat → Nat) :
    UProducer α → Glance (Operation α) (Answer α) → Prop where
  | idle (at_end : (u.heap u.bufW).pwrite = place u.size (first u.bufW) (held u.bufW).length) :
      UProducing u held first .idle .idle
  | pushing {data : α} {seen : Set (Answer α)}
      (at_end : (u.heap u.bufW).pwrite = place u.size (first u.bufW) (held u.bufW).length) :
      UProducing u held first (.pushing data) (.called (.push data) seen)
  | refilling {data : α} {seen : Set (Answer α)} (grows : u.fixedsize = false) :
      UProducing u held first (.refilling data) (.called (.push data) seen)
  | allocating {data : α} {seen : Set (Answer α)} (grows : u.fixedsize = false) :
      UProducing u held first (.allocating data) (.called (.push data) seen)
  | listing {data : α} {t : Nat} {seen : Set (Answer α)} (grows : u.fixedsize = false) :
      UProducing u held first (.listing data t) (.called (.push data) seen)
  | switching {data : α} {t : Nat} {seen : Set (Answer α)} (grows : u.fixedsize = false)
      (at_begin : (u.heap t).pwrite = 0) (first_eq : first t = 0) (held_eq : held t = []) :
      UProducing u held first (.switching data t) (.called (.push data) seen)
  | testing {data : α} {seen : Set (Answer α)}
      (at_end : (u.heap u.bufW).pwrite = place u.size (first u.bufW) (held u.bufW).length)
      (room : (held u.bufW).length < u.size) :
      UProducing u held first (.testing data) (.called (.push data) seen)
  | storing {data : α} {seen : Set (Answer α)}
      (at_end : (u.heap u.bufW).pwrite = place u.size (first u.bufW) (held u.bufW).length)
      (room : (held u.bufW).length < u.size) :
      UProducing u held first (.storing data) (.called (.push data) seen)
  | advancing (before : SwsrBuffer.advance u.size (u.heap u.bufW).pwrite =
        place u.size (first u.bufW) (held u.bufW).length) :
      UProducing u held first .advancing (.acted (.pushed true))
  | returning {success : Bool}
      (at_end : (u.heap u.bufW).pwrite = place u.size (first u.bufW) (held u.bufW).length) :
      UProducing u held first (.returning success) (.acted (.pushed success))

/-- How far the consumer's call is. -/
inductive UConsuming (u : UswsrBuffer α) (producer : UProducer α) (held : Nat → List α)
    (first : Nat → Nat) : UConsumer α → Glance (Operation α) (Answer α) → Prop where
  | idle (at_first : (u.heap u.bufR).pread = first u.bufR) :
      UConsuming u producer held first .idle .idle
  | popping {seen : Set (Answer α)} (at_first : (u.heap u.bufR).pread = first u.bufR) :
      UConsuming u producer held first .popping (.called .pop seen)
  | comparing {seen : Set (Answer α)} (at_first : (u.heap u.bufR).pread = first u.bufR)
      (known : u.bufR = u.bufW → .nothing ∈ seen) :
      UConsuming u producer held first .comparing (.called .pop seen)
  | checking {seen : Set (Answer α)} (at_first : (u.heap u.bufR).pread = first u.bufR)
      (left : u.bufR ≠ u.bufW) :
      UConsuming u producer held first .checking (.called .pop seen)
  | nexting {seen : Set (Answer α)} (left : u.bufR ≠ u.bufW) (drained : held u.bufR = []) :
      UConsuming u producer held first .nexting (.called .pop seen)
  | releasing {tmp : Nat} {seen : Set (Answer α)} (sized : (u.heap u.bufR).size = u.size) :
      UConsuming u producer held first (.releasing tmp) (.called .pop seen)
  | caching {tmp : Nat} {seen : Set (Answer α)} (blank : u.heap u.bufR = .blank u.size) :
      UConsuming u producer held first (.caching tmp) (.called .pop seen)
  | switching {tmp : Nat} {seen : Set (Answer α)} :
      UConsuming u producer held first (.switching tmp) (.called .pop seen)
  | testing {seen : Set (Answer α)} (at_first : (u.heap u.bufR).pread = first u.bufR)
      (known : held u.bufR ≠ [] ∨ u.inuse = [] ∧ u.bufR = u.bufW ∧ producer.newly) :
      UConsuming u producer held first .testing (.called .pop seen)
  | reading {seen : Set (Answer α)} (at_first : (u.heap u.bufR).pread = first u.bufR)
      (known : held u.bufR ≠ []) :
      UConsuming u producer held first .reading (.called .pop seen)
  | clearing {data : α} {seen : Set (Answer α)} (at_first : (u.heap u.bufR).pread = first u.bufR)
      (known : (held u.bufR).head? = some data) :
      UConsuming u producer held first (.clearing (some data)) (.called .pop seen)
  | advancing {data : Option α}
      (before : SwsrBuffer.advance u.size (u.heap u.bufR).pread = first u.bufR) :
      UConsuming u producer held first (.advancing data) (.acted (.popped data))
  | returning {answer : Answer α} (at_first : (u.heap u.bufR).pread = first u.bufR) :
      UConsuming u producer held first (.returning answer) (.acted answer)
  | recalled {answer : Answer α} {seen : Set (Answer α)}
      (at_first : (u.heap u.bufR).pread = first u.bufR) (known : answer ∈ seen) :
      UConsuming u producer held first (.returning answer) (.called .pop seen)

/-- The queue that a state of the buffer stands for. -/
def UChannel.Related (fixedsize : Bool) (size : Nat) (state : UChannel α)
    (object : Witnessed Party (List α) (Operation α) (Answer α)) : Prop :=
  state.buffer.fixedsize = fixedsize ∧ state.buffer.size = size ∧ ∃ held first,
    (fixedsize = true → state.buffer.chain state.consumer = [state.buffer.bufW]) ∧
    object.value = (state.buffer.chain state.consumer).flatMap held ∧
    Chained state.buffer state.producer state.consumer held first ∧
    UProducing state.buffer held first state.producer (object.glance .producer) ∧
    UConsuming state.buffer state.producer held first state.consumer (object.glance .consumer)

/-! ## What the steps keep -/

section Keeps

variable {u u' : UswsrBuffer α} {producer producer' : UProducer α}
variable {consumer consumer' : UConsumer α} {held held' : Nat → List α} {first first' : Nat → Nat}
variable {glance : Glance (Operation α) (Answer α)}

/-- A step that leaves the end of the producer's buffer leaves the producer where it is. -/
theorem UProducing.keeps (producing : UProducing u held first producer glance)
    (size_eq : u'.size = u.size) (bufW_eq : u'.bufW = u.bufW)
    (fixedsize_eq : u'.fixedsize = u.fixedsize)
    (pwrite : (u'.heap u.bufW).pwrite = (u.heap u.bufW).pwrite)
    (behind : place u.size (first' u.bufW) (held' u.bufW).length =
      place u.size (first u.bufW) (held u.bufW).length)
    (fewer : (held' u.bufW).length ≤ (held u.bufW).length)
    (fresh : ∀ t ∈ producer.fresh,
      (u'.heap t).pwrite = (u.heap t).pwrite ∧ first' t = first t ∧ held' t = held t) :
    UProducing u' held' first' producer glance := by
  cases producing with
  | idle at_end => exact .idle (by rw [size_eq, bufW_eq, pwrite, behind, at_end])
  | pushing at_end => exact .pushing (by rw [size_eq, bufW_eq, pwrite, behind, at_end])
  | refilling grows => exact .refilling (fixedsize_eq.trans grows)
  | allocating grows => exact .allocating (fixedsize_eq.trans grows)
  | listing grows => exact .listing (fixedsize_eq.trans grows)
  | switching grows at_begin first_eq held_eq =>
    obtain ⟨same, firsts, helds⟩ := fresh _ (List.mem_singleton_self _)
    exact .switching (fixedsize_eq.trans grows) (same.trans at_begin) (firsts.trans first_eq)
      (helds.trans held_eq)
  | testing at_end room =>
    exact .testing (by rw [size_eq, bufW_eq, pwrite, behind, at_end])
      (by rw [size_eq, bufW_eq]; omega)
  | storing at_end room =>
    exact .storing (by rw [size_eq, bufW_eq, pwrite, behind, at_end])
      (by rw [size_eq, bufW_eq]; omega)
  | advancing before => exact .advancing (by rw [size_eq, bufW_eq, pwrite, behind, before])
  | returning at_end => exact .returning (by rw [size_eq, bufW_eq, pwrite, behind, at_end])

/-- The buffer that the producer is about to go on to holds nothing. -/
theorem UProducing.fresh_held (producing : UProducing u held first producer glance) :
    ∀ t ∈ producer.fresh, held t = [] := by
  intro t fresh
  cases producing with
  | switching grows at_begin first_eq held_eq => rwa [List.mem_singleton.mp fresh]
  | _ => cases fresh

/-- A step of the producer leaves the consumer where it is: it may add to the consumer's buffer, and
the producer does not come back to a buffer that it has left. -/
theorem UConsuming.keeps (consuming : UConsuming u producer held first consumer glance)
    (size_eq : u'.size = u.size) (bufR_eq : u'.bufR = u.bufR)
    (pread : consumer.handed = none → (u'.heap u.bufR).pread = (u.heap u.bufR).pread)
    (firsts : consumer.handed = none → first' u.bufR = first u.bufR)
    (stale : ∀ a ∈ consumer.stale u.bufR, u'.heap a = u.heap a)
    (left : consumer.handed = none → u.bufR ≠ u.bufW →
      u.bufR ≠ u'.bufW ∧ held' u.bufR = held u.bufR)
    (longer : consumer.handed = none → ∃ more, held' u.bufR = held u.bufR ++ more)
    (newly : consumer.handed = none → u.inuse = [] → u.bufR = u.bufW → producer.newly →
      held' u.bufR ≠ [] ∨ u'.inuse = [] ∧ u.bufR = u'.bufW ∧ producer'.newly) :
    UConsuming u' producer' held' first' consumer glance := by
  cases consuming with
  | idle at_first => exact .idle (by rw [bufR_eq, pread rfl, firsts rfl, at_first])
  | popping at_first => exact .popping (by rw [bufR_eq, pread rfl, firsts rfl, at_first])
  | comparing at_first known =>
    refine .comparing (by rw [bufR_eq, pread rfl, firsts rfl, at_first]) fun same => known ?_
    by_contra apart
    exact (left rfl apart).1 (bufR_eq ▸ same)
  | checking at_first apart =>
    exact .checking (by rw [bufR_eq, pread rfl, firsts rfl, at_first])
      (by rw [bufR_eq]; exact (left rfl apart).1)
  | nexting apart drained =>
    obtain ⟨apart', same⟩ := left rfl apart
    exact .nexting (by rwa [bufR_eq]) (by rw [bufR_eq, same, drained])
  | releasing sized =>
    refine .releasing ?_
    rw [bufR_eq, stale _ (List.mem_singleton_self _), sized, size_eq]
  | caching blank =>
    refine .caching ?_
    rw [bufR_eq, stale _ (List.mem_singleton_self _), blank, size_eq]
  | switching => exact .switching
  | testing at_first known =>
    refine .testing (by rw [bufR_eq, pread rfl, firsts rfl, at_first]) ?_
    rw [bufR_eq]
    rcases known with some_held | ⟨none_behind, same, at_cell⟩
    · obtain ⟨more, grown⟩ := longer rfl
      exact .inl (by simp [grown, some_held])
    · exact newly rfl none_behind same at_cell
  | reading at_first known =>
    obtain ⟨more, grown⟩ := longer rfl
    exact .reading (by rw [bufR_eq, pread rfl, firsts rfl, at_first])
      (by rw [bufR_eq, grown]; simp [known])
  | clearing at_first known =>
    obtain ⟨more, grown⟩ := longer rfl
    exact .clearing (by rw [bufR_eq, pread rfl, firsts rfl, at_first])
      (by rw [bufR_eq, grown]; simp [known])
  | advancing before =>
    exact .advancing (by rw [bufR_eq, pread rfl, firsts rfl, size_eq, before])
  | returning at_first => exact .returning (by rw [bufR_eq, pread rfl, firsts rfl, at_first])
  | recalled at_first known =>
    exact .recalled (by rw [bufR_eq, pread rfl, firsts rfl, at_first]) known

/-- The producer's buffer is in the chain. -/
theorem Chained.bufW_mem (known : Chained u producer consumer held first) :
    u.bufW ∈ u.chain consumer := by
  obtain ⟨closed, eq⟩ := known.writer
  rw [eq]
  simp

/-- A buffer that the consumer has not touched is in the chain. -/
theorem UswsrBuffer.rest_subset {a : Nat} (inside : a ∈ u.rest consumer) :
    a ∈ u.chain consumer :=
  List.mem_append_right _ inside

/-- A consumer that is not on its way begins the chain. -/
theorem UswsrBuffer.chain_eq (still : consumer.handed = none) :
    u.chain consumer = u.bufR :: u.inuse := by
  simp [UswsrBuffer.chain, UswsrBuffer.rest, still]

/-- Behind a consumer that is not on its way are the buffers in use. -/
theorem UswsrBuffer.rest_eq (still : consumer.handed = none) : u.rest consumer = u.inuse := by
  simp [UswsrBuffer.rest, still]

/-- A buffer between those of the chain and those of the cache. -/
theorem perm_between (a : Nat) (chain pending cached : List Nat) :
    (a :: (chain ++ (pending ++ cached))).Perm (chain ++ (pending ++ ([a] ++ cached))) := by
  have moved := @List.perm_middle Nat a (chain ++ pending) cached
  simpa using moved.symm

namespace Chained

/-- The producer goes on without a change to the buffers. -/
theorem turnProducer (known : Chained u producer consumer held first)
    (fresh : producer'.fresh = producer.fresh) (pending : producer'.pending = producer.pending)
    (newly : producer.newly → producer'.newly) : Chained u producer' consumer held first where
  writer := by rw [fresh]; exact known.writer
  slots := known.slots
  untouched := known.untouched
  filled := fun a inside => by
    rw [fresh]
    rcases known.filled a inside with some_held | listed | ⟨same, at_cell⟩
    · exact .inl some_held
    · exact .inr (.inl listed)
    · exact .inr (.inr ⟨same, newly at_cell⟩)
  distinct := by rw [pending]; exact known.distinct
  live := by rw [pending]; exact known.live
  blank := by rw [pending]; exact known.blank

/-- The consumer goes on without a change to the buffers. -/
theorem turnConsumer (known : Chained u producer consumer held first)
    (handed : consumer'.handed = consumer.handed)
    (stale : consumer'.stale u.bufR = consumer.stale u.bufR) :
    Chained u producer consumer' held first := by
  have rest : u.rest consumer' = u.rest consumer := by
    rw [UswsrBuffer.rest, UswsrBuffer.rest, handed]
  have chain : u.chain consumer' = u.chain consumer := by
    rw [UswsrBuffer.chain, UswsrBuffer.chain, rest, handed]
  exact {
    writer := by rw [chain]; exact known.writer
    slots := by rw [chain]; exact known.slots
    untouched := by rw [rest]; exact known.untouched
    filled := by rw [rest]; exact known.filled
    distinct := by rw [chain, stale]; exact known.distinct
    live := by rw [chain, stale]; exact known.live
    blank := known.blank }

/-- The producer changes its buffer. -/
theorem store (known : Chained u producer consumer held first) (producer' : UProducer α)
    (b : SwsrBuffer α) (now : List α)
    (fresh : producer'.fresh = producer.fresh) (pending : producer.pending = [])
    (pending' : producer'.pending = []) (sized : b.size = u.size)
    (pread : b.pread = (u.heap u.bufW).pread)
    (slots : Slots u.size b.buf (first u.bufW) now 0 [])
    (filled : now ≠ [] ∨ now = held u.bufW ∧ ¬producer.newly) :
    Chained (u.change u.bufW b) producer' consumer (Function.update held u.bufW now) first where
  writer := by rw [fresh]; exact known.writer
  slots := fun a inside => by
    by_cases same : a = u.bufW
    · subst same
      simpa [UswsrBuffer.change] using And.intro sized slots
    · simpa [UswsrBuffer.change, same] using known.slots a inside
  untouched := fun a inside => by
    by_cases same : a = u.bufW
    · subst same
      simpa [UswsrBuffer.change, pread] using known.untouched _ inside
    · simpa [UswsrBuffer.change, same] using known.untouched a inside
  filled := fun a inside => by
    by_cases same : a = u.bufW
    · subst same
      rw [Function.update_self, fresh]
      rcases filled with some_now | ⟨rfl, stored⟩
      · exact .inl some_now
      · rcases known.filled _ inside with some_held | listed | ⟨-, at_cell⟩
        · exact .inl some_held
        · exact .inr (.inl listed)
        · exact absurd at_cell stored
    · rw [Function.update_of_ne same, fresh]
      rcases known.filled a inside with some_held | listed | ⟨absurd_, -⟩
      · exact .inl some_held
      · exact .inr (.inl listed)
      · exact absurd absurd_ same
  distinct := by
    have distinct := known.distinct
    rw [pending] at distinct
    rw [pending']
    exact distinct
  live := by
    have live := known.live
    rw [pending] at live
    rw [pending']
    exact live
  blank := fun a inside => by
    rw [pending', List.nil_append] at inside
    have apart : a ≠ u.bufW := by
      rintro rfl
      have distinct := known.distinct
      rw [List.nodup_append] at distinct
      exact distinct.2.2 _ known.bufW_mem _
        (List.mem_append_right _ (List.mem_append_right _ inside)) rfl
    simpa [UswsrBuffer.change, apart] using known.blank a (List.mem_append_right _ inside)

/-- The consumer changes its buffer. -/
theorem take (known : Chained u producer consumer held first) (consumer' : UConsumer α)
    (b : SwsrBuffer α) (now : List α) (start : Nat) (still : consumer.handed = none)
    (still' : consumer'.handed = none)
    (stale : consumer.stale u.bufR = []) (stale' : consumer'.stale u.bufR = [])
    (sized : b.size = u.size) (slots : Slots u.size b.buf start now 0 []) :
    Chained (u.change u.bufR b) producer consumer' (Function.update held u.bufR now)
      (Function.update first u.bufR start) := by
  have distinct := known.distinct
  rw [UswsrBuffer.chain_eq still, stale, List.nil_append, List.cons_append,
    List.nodup_cons] at distinct
  have apart : ∀ a ∈ u.inuse, a ≠ u.bufR := fun a inside same =>
    distinct.1 (List.mem_append_left _ (same ▸ inside))
  refine {
    writer := ?_
    slots := fun a inside => ?_
    untouched := fun a inside => ?_
    filled := fun a inside => ?_
    distinct := ?_
    live := ?_
    blank := fun a inside => ?_ }
  · rw [UswsrBuffer.chain_eq still']
    have writer := known.writer
    rwa [UswsrBuffer.chain_eq still] at writer
  · rw [UswsrBuffer.chain_eq still'] at inside
    by_cases same : a = u.bufR
    · subst same
      simpa [UswsrBuffer.change] using And.intro sized slots
    · have before := known.slots a (by rw [UswsrBuffer.chain_eq still]; exact inside)
      simpa [UswsrBuffer.change, same] using before
  · rw [UswsrBuffer.rest_eq still'] at inside
    have before := known.untouched a (by rw [UswsrBuffer.rest_eq still]; exact inside)
    simpa [UswsrBuffer.change, apart a inside] using before
  · rw [UswsrBuffer.rest_eq still'] at inside
    rw [Function.update_of_ne (apart a inside)]
    exact known.filled a (by rw [UswsrBuffer.rest_eq still]; exact inside)
  · have before := known.distinct
    rw [UswsrBuffer.chain_eq still, stale] at before
    rw [UswsrBuffer.chain_eq still']
    show (u.bufR :: u.inuse ++ (producer.pending ++ (consumer'.stale u.bufR ++ u.bufcache))).Nodup
    rwa [stale']
  · have before := known.live
    rw [UswsrBuffer.chain_eq still, stale] at before
    rw [UswsrBuffer.chain_eq still']
    show ∀ a, u.free a = false ↔
      a ∈ u.bufR :: u.inuse ++ (producer.pending ++ (consumer'.stale u.bufR ++ u.bufcache))
    rwa [stale']
  · have other : a ≠ u.bufR := fun same =>
      distinct.1 (List.mem_append_right _ (same ▸ inside))
    simpa [UswsrBuffer.change, other] using known.blank a inside

/-- `next_w` takes a buffer from the cache. -/
theorem refill {data : α} {t : Nat} {cached : List Nat}
    (known : Chained u (.refilling data) consumer held first) (cache : u.bufcache = t :: cached) :
    Chained { u with bufcache := cached } (.listing data t) consumer held first where
  writer := known.writer
  slots := known.slots
  untouched := known.untouched
  filled := fun a inside => by
    rcases known.filled a inside with some_held | listed | ⟨-, absurd_⟩
    · exact .inl some_held
    · exact .inr (.inl listed)
    · exact absurd_.elim
  distinct := by
    have distinct := known.distinct
    rw [cache] at distinct
    have moved := @List.perm_middle Nat t (consumer.stale u.bufR) cached
    exact (moved.append_left (u.chain consumer)).nodup_iff.mp distinct
  live := fun a => by
    have moved := @List.perm_middle Nat t (consumer.stale u.bufR) cached
    rw [known.live a, cache]
    exact (moved.append_left (u.chain consumer)).mem_iff
  blank := fun a inside => by
    refine known.blank a ?_
    rw [cache]
    exact inside

/-- `next_w` allocates a buffer. -/
theorem allocate {data : α} {address : Nat}
    (known : Chained u (.allocating data) consumer held first) (free : u.free address = true) :
    Chained
      { u.change address (.blank u.size) with free := Function.update u.free address false }
      (.listing data address) consumer held first := by
  have apart : ∀ a ∈ u.chain consumer ++ (consumer.stale u.bufR ++ u.bufcache), a ≠ address :=
    fun a inside same => by
      have taken := (known.live a).mpr inside
      rw [same, free] at taken
      cases taken
  refine {
    writer := known.writer
    slots := fun a inside => ?_
    untouched := fun a inside => ?_
    filled := fun a inside => ?_
    distinct := ?_
    live := fun a => ?_
    blank := fun a inside => ?_ }
  · have before := known.slots a inside
    simpa [UswsrBuffer.change, apart a (List.mem_append_left _ inside)] using before
  · have before := known.untouched a inside
    simpa [UswsrBuffer.change,
      apart a (List.mem_append_left _ (UswsrBuffer.rest_subset inside))] using before
  · rcases known.filled a inside with some_held | listed | ⟨-, absurd_⟩
    · exact .inl some_held
    · exact .inr (.inl listed)
    · exact absurd_.elim
  · have moved := @List.perm_middle Nat address (u.chain consumer)
      (consumer.stale u.bufR ++ u.bufcache)
    exact moved.nodup_iff.mpr
      (List.nodup_cons.mpr ⟨fun inside => apart _ inside rfl, known.distinct⟩)
  · have moved := (@List.perm_middle Nat address (u.chain consumer)
      (consumer.stale u.bufR ++ u.bufcache)).mem_iff (a := a)
    refine Iff.trans ?_ moved.symm
    rw [List.mem_cons]
    by_cases same : a = address
    · simp [same]
    · simpa [same, UProducer.pending] using known.live a
  · by_cases same : a = address
    · simp [UswsrBuffer.change, same]
    · have before : a ∈ u.bufcache := by
        have listed : a ∈ [address] ++ u.bufcache := inside
        simpa [same] using listed
      simpa [UswsrBuffer.change, same] using known.blank a before

/-- `next_w` lists the buffer as in use. -/
theorem list {data : α} {t : Nat} (known : Chained u (.listing data t) consumer held first)
    (positive : 0 < u.size) :
    Chained { u with inuse := u.inuse ++ [t] } (.switching data t) consumer
      (Function.update held t []) (Function.update first t 0) := by
  have distinct := known.distinct
  have blank : u.heap t = .blank u.size := known.blank t (List.mem_cons_self ..)
  have apart : ∀ a ∈ u.chain consumer, a ≠ t := fun a inside same => by
    rw [List.nodup_append] at distinct
    exact distinct.2.2 a inside t (List.mem_cons_self ..) same
  have chain : ({ u with inuse := u.inuse ++ [t] } : UswsrBuffer α).chain consumer =
      u.chain consumer ++ [t] := by
    simp [UswsrBuffer.chain, UswsrBuffer.rest]
  have rest : ({ u with inuse := u.inuse ++ [t] } : UswsrBuffer α).rest consumer =
      u.rest consumer ++ [t] := by
    simp [UswsrBuffer.rest]
  refine {
    writer := ?_
    slots := fun a inside => ?_
    untouched := fun a inside => ?_
    filled := fun a inside => ?_
    distinct := ?_
    live := fun a => ?_
    blank := fun a inside => known.blank a (List.mem_append_right _ inside) }
  · obtain ⟨closed, eq⟩ := known.writer
    exact ⟨closed, by rw [chain, eq]; simp [UProducer.fresh]⟩
  · rw [chain, List.mem_append, List.mem_singleton] at inside
    rcases inside with before | rfl
    · simpa [apart a before] using known.slots a before
    · rw [blank, Function.update_self, Function.update_self]
      exact ⟨rfl, .empty positive⟩
  · rw [rest, List.mem_append, List.mem_singleton] at inside
    rcases inside with before | rfl
    · simpa [apart a (UswsrBuffer.rest_subset before)] using known.untouched a before
    · rw [blank, Function.update_self]
      exact ⟨rfl, rfl⟩
  · rw [rest, List.mem_append, List.mem_singleton] at inside
    rcases inside with before | rfl
    · rw [Function.update_of_ne (apart a (UswsrBuffer.rest_subset before))]
      rcases known.filled a before with some_held | absurd_ | ⟨-, absurd_⟩
      · exact .inl some_held
      · cases absurd_
      · exact absurd_.elim
    · exact .inr (.inl (List.mem_cons_self ..))
  · rw [chain, List.append_assoc]
    exact distinct
  · rw [chain, List.append_assoc]
    exact known.live a

/-- The producer goes on to the buffer. -/
theorem goOn {data : α} {t : Nat} (known : Chained u (.switching data t) consumer held first) :
    Chained { u with bufW := t } (.testing data) consumer held first where
  writer := by
    obtain ⟨closed, eq⟩ := known.writer
    exact ⟨closed ++ [u.bufW], by
      show u.chain consumer = _
      rw [eq, List.append_assoc]
      rfl⟩
  slots := known.slots
  untouched := known.untouched
  filled := fun a inside => by
    rcases known.filled a inside with some_held | listed | ⟨-, absurd_⟩
    · exact .inl some_held
    · exact .inr (.inr ⟨List.mem_singleton.mp listed, trivial⟩)
    · exact absurd_.elim
  distinct := known.distinct
  live := known.live
  blank := known.blank

/-- `next_r` takes the next buffer from the list. -/
theorem next {tmp : Nat} {behind : List Nat} (known : Chained u producer .nexting held first)
    (listed : u.inuse = tmp :: behind) (left : u.bufR ≠ u.bufW) :
    Chained { u with inuse := behind } producer (.releasing tmp) held first := by
  have chain : u.chain .nexting = u.bufR :: tmp :: behind := by
    rw [UswsrBuffer.chain_eq rfl, listed]
  have rest : u.rest .nexting = tmp :: behind := listed
  refine {
    writer := ?_
    slots := fun a inside => known.slots a (by rw [chain]; exact List.mem_cons_of_mem _ inside)
    untouched := fun a inside => known.untouched a (by rw [rest]; exact inside)
    filled := fun a inside => known.filled a (by rw [rest]; exact inside)
    distinct := ?_
    live := fun a => ?_
    blank := known.blank }
  · obtain ⟨closed, eq⟩ := known.writer
    rw [chain] at eq
    cases closed with
    | nil => exact absurd (List.cons.inj eq).1 left
    | cons a closed => exact ⟨closed, (List.cons.inj eq).2⟩
  · have distinct := known.distinct
    rw [chain] at distinct
    exact (perm_between u.bufR (tmp :: behind) producer.pending u.bufcache).nodup_iff.mp distinct
  · rw [known.live a, chain]
    exact (perm_between u.bufR (tmp :: behind) producer.pending u.bufcache).mem_iff

/-- `release` resets the buffer. -/
theorem release {tmp : Nat} {b : SwsrBuffer α}
    (known : Chained u producer (.releasing tmp) held first) :
    Chained (u.change u.bufR b) producer (.caching tmp) held first := by
  have distinct := known.distinct
  have apart : ∀ a ∈ tmp :: u.inuse ++ (producer.pending ++ u.bufcache), a ≠ u.bufR :=
    fun a inside same => by
      have moved := perm_between u.bufR (tmp :: u.inuse) producer.pending u.bufcache
      exact (List.nodup_cons.mp (moved.nodup_iff.mpr distinct)).1 (same ▸ inside)
  refine {
    writer := known.writer
    slots := fun a inside => ?_
    untouched := fun a inside => ?_
    filled := known.filled
    distinct := known.distinct
    live := known.live
    blank := fun a inside => ?_ }
  · simpa [UswsrBuffer.change, apart a (List.mem_append_left _ inside)] using known.slots a inside
  · simpa [UswsrBuffer.change, apart a (List.mem_append_left _ inside)] using
      known.untouched a inside
  · simpa [UswsrBuffer.change, apart a (List.mem_append_right _ inside)] using
      known.blank a inside

/-- `release` gives the buffer to the cache. -/
theorem cache {tmp : Nat} (known : Chained u producer (.caching tmp) held first)
    (blank : u.heap u.bufR = .blank u.size) :
    Chained { u with bufcache := u.bufcache ++ [u.bufR] } producer (.switching tmp) held first := by
  have moved : ([u.bufR] ++ u.bufcache).Perm (u.bufcache ++ [u.bufR]) := List.perm_append_comm
  refine {
    writer := known.writer
    slots := known.slots
    untouched := known.untouched
    filled := known.filled
    distinct := ?_
    live := fun a => ?_
    blank := fun a inside => ?_ }
  · exact ((moved.append_left _).append_left _).nodup_iff.mp known.distinct
  · exact (known.live a).trans ((moved.append_left _).append_left _).mem_iff
  · have inside' : a ∈ producer.pending ++ (u.bufcache ++ [u.bufR]) := inside
    rw [← List.append_assoc, List.mem_append, List.mem_singleton] at inside'
    rcases inside' with before | rfl
    · exact known.blank a before
    · exact blank

/-- `release` frees the buffer. -/
theorem drop {tmp : Nat} (known : Chained u producer (.caching tmp) held first) :
    Chained { u with free := Function.update u.free u.bufR true } producer (.switching tmp) held
      first := by
  have moved := perm_between u.bufR (tmp :: u.inuse) producer.pending u.bufcache
  have distinct := List.nodup_cons.mp (moved.nodup_iff.mpr known.distinct)
  refine {
    writer := known.writer
    slots := known.slots
    untouched := known.untouched
    filled := known.filled
    distinct := distinct.2
    live := fun a => ?_
    blank := known.blank }
  show Function.update u.free u.bufR true a = false ↔
    a ∈ tmp :: u.inuse ++ (producer.pending ++ u.bufcache)
  by_cases same : a = u.bufR
  · subst same
    simpa using distinct.1
  · have before := (known.live a).trans moved.mem_iff.symm
    rw [List.mem_cons] at before
    simpa [same] using before

/-- The consumer goes on to the next buffer. -/
theorem moveOn {tmp : Nat} (known : Chained u producer (.switching tmp) held first) :
    Chained { u with bufR := tmp } producer .testing held first where
  writer := known.writer
  slots := known.slots
  untouched := fun a inside => known.untouched a (List.mem_cons_of_mem _ inside)
  filled := fun a inside => known.filled a (List.mem_cons_of_mem _ inside)
  distinct := known.distinct
  live := known.live
  blank := known.blank

end Chained

end Keeps

/-! ## The queue -/

section Queue

variable {closed behind : List Nat} {held : Nat → List α} {a : Nat} {x : α} {rest : List α}

/-- What is stored in the last buffer joins the queue at its end. -/
theorem flatMap_store (distinct : (closed ++ [a]).Nodup) :
    (closed ++ [a]).flatMap (Function.update held a (held a ++ [x])) =
      (closed ++ [a]).flatMap held ++ [x] := by
  have apart : ∀ other ∈ closed, other ≠ a := fun other inside same => by
    rw [List.nodup_append] at distinct
    exact distinct.2.2 other inside a (List.mem_singleton_self a) same
  have same : closed.flatMap (Function.update held a (held a ++ [x])) = closed.flatMap held :=
    List.flatMap_congr fun other inside => Function.update_of_ne (apart other inside) _ _
  simp [List.flatMap_append, same]

/-- A buffer that has just been listed adds nothing. -/
theorem flatMap_list (fresh : a ∉ behind) :
    (behind ++ [a]).flatMap (Function.update held a []) = behind.flatMap held := by
  have same : behind.flatMap (Function.update held a []) = behind.flatMap held :=
    List.flatMap_congr fun other inside =>
      Function.update_of_ne (fun eq : other = a => fresh (eq ▸ inside)) _ _
  simp [List.flatMap_append, same]

/-- What is taken from the first buffer leaves the queue at its begin. -/
theorem flatMap_take (distinct : (a :: behind).Nodup) (known : held a = x :: rest) :
    (a :: behind).flatMap held = x :: (a :: behind).flatMap (Function.update held a rest) := by
  have same : behind.flatMap (Function.update held a rest) = behind.flatMap held :=
    List.flatMap_congr fun other inside => Function.update_of_ne
      (fun eq : other = a => (List.nodup_cons.mp distinct).1 (eq ▸ inside)) _ _
  simp [List.flatMap_cons, same, known]

end Queue

namespace Chained

variable {u : UswsrBuffer α} {producer : UProducer α} {consumer : UConsumer α}
variable {held : Nat → List α} {first : Nat → Nat}

/-- The buffers of the chain differ. -/
theorem chain_nodup (known : Chained u producer consumer held first) :
    (u.chain consumer).Nodup :=
  (List.nodup_append.mp known.distinct).1

/-- What the producer's buffer holds. -/
theorem slots_w (known : Chained u producer consumer held first) :
    (u.heap u.bufW).size = u.size ∧
      Slots u.size (u.heap u.bufW).buf (first u.bufW) (held u.bufW) 0 [] :=
  known.slots _ known.bufW_mem

/-- What the consumer's buffer holds. -/
theorem slots_r (known : Chained u producer consumer held first)
    (still : consumer.handed = none) :
    (u.heap u.bufR).size = u.size ∧
      Slots u.size (u.heap u.bufR).buf (first u.bufR) (held u.bufR) 0 [] :=
  known.slots _ (by rw [UswsrBuffer.chain_eq still]; exact List.mem_cons_self ..)

/-- The producer's buffer has a free cell when it holds less than its size. -/
theorem available_iff (known : Chained u producer consumer held first)
    (at_end : (u.heap u.bufW).pwrite = place u.size (first u.bufW) (held u.bufW).length) :
    (u.heap u.bufW).available = true ↔ (held u.bufW).length < u.size := by
  rw [SwsrBuffer.available, at_end]
  exact known.slots_w.2.end_isNone

/-- The consumer's buffer is empty when it holds nothing. -/
theorem empty_iff (known : Chained u producer consumer held first)
    (still : consumer.handed = none) (at_first : (u.heap u.bufR).pread = first u.bufR) :
    (u.heap u.bufR).empty = true ↔ held u.bufR = [] := by
  rw [SwsrBuffer.empty, at_first]
  exact (known.slots_r still).2.start_isNone

/-- A buffer that the consumer hands back is not the producer's one. -/
theorem stale_ne (known : Chained u producer consumer held first) :
    ∀ a ∈ consumer.stale u.bufR, a ≠ u.bufW := fun a inside same =>
  (List.nodup_append.mp known.distinct).2.2 u.bufW known.bufW_mem a
    (List.mem_append_right _ (List.mem_append_left _ inside)) same.symm

/-- Where the two parties share a buffer and no other one is listed it is the whole chain. -/
theorem chain_shared (known : Chained u producer consumer held first)
    (still : consumer.handed = none) (shared : u.bufR = u.bufW) :
    u.inuse = producer.fresh := by
  obtain ⟨closed, eq⟩ := known.writer
  have distinct := known.chain_nodup
  rw [UswsrBuffer.chain_eq still] at eq distinct
  cases closed with
  | nil => exact (List.cons.inj eq).2
  | cons a closed =>
    obtain ⟨rfl, tail⟩ := List.cons.inj eq
    have again : u.bufR ∈ u.inuse := by rw [tail, shared]; simp
    exact absurd again (List.nodup_cons.mp distinct).1

/-- The consumer has not touched the buffer that the producer is about to go on to. -/
theorem fresh_mem (known : Chained u producer consumer held first) :
    ∀ t ∈ producer.fresh, t ∈ u.rest consumer := by
  intro t fresh
  obtain ⟨closed, eq⟩ := known.writer
  by_cases still : consumer.handed = none
  · rw [UswsrBuffer.chain_eq still] at eq
    rw [UswsrBuffer.rest_eq still]
    cases closed with
    | nil => rwa [(List.cons.inj eq).2]
    | cons a closed =>
      rw [(List.cons.inj eq).2]
      exact List.mem_append_right _ (List.mem_cons_of_mem _ fresh)
  · have whole : u.chain consumer = u.rest consumer := by
      rw [UswsrBuffer.chain, if_neg still, List.nil_append]
    rw [← whole, eq]
    exact List.mem_append_right _ (List.mem_cons_of_mem _ fresh)

/-- Where the parties are at different buffers another one is listed. -/
theorem inuse_ne_nil (known : Chained u producer consumer held first)
    (still : consumer.handed = none) (left : u.bufR ≠ u.bufW) :
    u.inuse ≠ [] := by
  intro none_listed
  have inside := known.bufW_mem
  rw [UswsrBuffer.chain_eq still, none_listed, List.mem_singleton] at inside
  exact left inside.symm

end Chained

end P3arsec.Fastflow
