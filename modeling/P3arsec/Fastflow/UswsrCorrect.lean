import P3arsec.Fastflow.UswsrChain

/-!
# The unbounded buffer is a queue

Each step of a party is matched by at most one step of the queue. `push` takes effect with its
store and `pop` where it frees the cell. A `pop` that fails because the two parties are at one
buffer gives an answer that was right when it found the buffer empty: the producer may have stored
since.
-/

namespace P3arsec.Fastflow

open P3arsec.Lib
open P3arsec.Lib.Concurrent

variable {α : Type}

namespace UChannel

/-- What a related state says besides how far the two calls are. -/
structure Parted (u : UswsrBuffer α) (producer : UProducer α) (consumer : UConsumer α)
    (queue : List α) (held : Nat → List α) (first : Nat → Nat) : Prop where
  /-- A buffer of fixed size has no other one behind it. -/
  single : u.fixedsize = true → u.chain consumer = [u.bufW]
  /-- The queue. -/
  value : queue = (u.chain consumer).flatMap held
  /-- The buffers. -/
  chained : Chained u producer consumer held first

/-- A step of a party without an event is matched by at most one step of the queue. -/
def Matched (fixedsize : Bool) (size : Nat)
    (object : Witnessed Party (List α) (Operation α) (Answer α)) (next : UChannel α) : Prop :=
  ∃ object', (object' = object ∨ Witnessed.Step (Unbounded fixedsize size) object none object') ∧
    Related fixedsize size next object'

section Steps

variable {fixedsize : Bool} {size : Nat} {u u' : UswsrBuffer α} {producer next : UProducer α}
variable {consumer next' : UConsumer α} {queue : List α} {held : Nat → List α} {first : Nat → Nat}
variable {glance glance' : Party → Glance (Operation α) (Answer α)}

/-- The producer goes on without a change to the buffers. -/
theorem related_producer (fixed : u.fixedsize = fixedsize) (sized : u.size = size)
    (single : fixedsize = true → u.chain consumer = [u.bufW])
    (value : queue = (u.chain consumer).flatMap held)
    (chained : Chained u producer consumer held first)
    (consuming : UConsuming u producer held first consumer (glance .consumer))
    (fresh : next.fresh = producer.fresh) (pending : next.pending = producer.pending)
    (newly : producer.newly → next.newly)
    (producing : UProducing u held first next (glance' .producer))
    (other : glance' .consumer = glance .consumer) :
    Related fixedsize size ⟨u, next, consumer⟩ ⟨queue, glance'⟩ := by
  refine ⟨fixed, sized, held, first, single, value, chained.turnProducer fresh pending newly,
    producing, ?_⟩
  dsimp only
  rw [other]
  exact consuming.keeps rfl rfl (fun _ => rfl) (fun _ => rfl) (fun _ _ => rfl)
    (fun _ apart => ⟨apart, rfl⟩) (fun _ => ⟨[], (List.append_nil _).symm⟩)
    fun _ none_listed same at_cell => .inr ⟨none_listed, same, newly at_cell⟩

/-- The consumer goes on without a change to the buffers. -/
theorem related_consumer (fixed : u.fixedsize = fixedsize) (sized : u.size = size)
    (single : fixedsize = true → u.chain consumer = [u.bufW])
    (value : queue = (u.chain consumer).flatMap held)
    (chained : Chained u producer consumer held first)
    (producing : UProducing u held first producer (glance .producer))
    (handed : next'.handed = consumer.handed)
    (stale : next'.stale u.bufR = consumer.stale u.bufR)
    (consuming : UConsuming u producer held first next' (glance' .consumer))
    (other : glance' .producer = glance .producer) :
    Related fixedsize size ⟨u, producer, next'⟩ ⟨queue, glance'⟩ := by
  have chain : u.chain next' = u.chain consumer := by
    simp only [UswsrBuffer.chain, UswsrBuffer.rest, handed]
  refine ⟨fixed, sized, held, first, ?_, ?_, chained.turnConsumer handed stale, ?_, consuming⟩
  · dsimp only
    rwa [chain]
  · dsimp only
    rwa [chain]
  · dsimp only
    rwa [other]

/-- `push` asks whether its buffer has a free cell. -/
theorem produce_pushing_matched {data : α} {seen : Set (Answer α)}
    (parted : Parted u (.pushing data) consumer queue held first)
    (consuming : UConsuming u (.pushing data) held first consumer (glance .consumer))
    (at_end : (u.heap u.bufW).pwrite = place u.size (first u.bufW) (held u.bufW).length)
    (produced : glance .producer = .called (.push data) seen)
    (moves : u.produce (.pushing data) = some (next, u')) :
    Matched u.fixedsize u.size ⟨queue, glance⟩ ⟨u', next, consumer⟩ := by
  obtain ⟨single, value, chained⟩ := parted
  have tested := chained.available_iff at_end
  have full : (u.heap u.bufW).available = false → (held u.bufW).length = u.size := by
    intro known
    have none_free : ¬(held u.bufW).length < u.size := fun room => by
      simp [tested.mpr room] at known
    have length_le := chained.slots_w.2.length_le
    omega
  simp only [UswsrBuffer.produce] at moves
  split_ifs at moves with room fixed
  · obtain ⟨rfl, rfl⟩ := (Prod.mk.injEq ..).mp (Option.some.inj moves)
    refine ⟨_, .inl rfl, related_producer rfl rfl single value chained consuming rfl rfl
      (fun absurd_ => absurd_.elim) ?_ rfl⟩
    rw [produced]
    exact .testing at_end (tested.mp room)
  · obtain ⟨rfl, rfl⟩ := (Prod.mk.injEq ..).mp (Option.some.inj moves)
    have length_eq : queue.length = u.size := by
      rw [value, single fixed]
      simpa using full (by simpa using room)
    refine ⟨_, .inr (.act produced (.full fixed length_eq)), related_producer rfl rfl single value
      chained consuming rfl rfl (fun absurd_ => absurd_.elim) ?_
      (Function.update_of_ne (by decide) _ _)⟩
    rw [Function.update_self]
    exact .returning at_end
  · obtain ⟨rfl, rfl⟩ := (Prod.mk.injEq ..).mp (Option.some.inj moves)
    refine ⟨_, .inl rfl, related_producer rfl rfl single value chained consuming rfl rfl
      (fun absurd_ => absurd_.elim) ?_ rfl⟩
    rw [produced]
    exact .refilling (by simpa using fixed)

/-- `next_w` takes a buffer from the cache, if there is one. -/
theorem produce_refilling_matched {data : α} {seen : Set (Answer α)}
    (parted : Parted u (.refilling data) consumer queue held first)
    (consuming : UConsuming u (.refilling data) held first consumer (glance .consumer))
    (grows : u.fixedsize = false) (produced : glance .producer = .called (.push data) seen)
    (moves : u.produce (.refilling data) = some (next, u')) :
    Matched u.fixedsize u.size ⟨queue, glance⟩ ⟨u', next, consumer⟩ := by
  obtain ⟨single, value, chained⟩ := parted
  simp only [UswsrBuffer.produce] at moves
  cases cache : u.bufcache with
  | nil =>
    simp only [cache] at moves
    obtain ⟨rfl, rfl⟩ := (Prod.mk.injEq ..).mp (Option.some.inj moves)
    refine ⟨_, .inl rfl, related_producer rfl rfl single value chained consuming rfl rfl
      (fun absurd_ => absurd_.elim) ?_ rfl⟩
    rw [produced]
    exact .allocating grows
  | cons t cached =>
    simp only [cache] at moves
    obtain ⟨rfl, rfl⟩ := (Prod.mk.injEq ..).mp (Option.some.inj moves)
    refine ⟨_, .inl rfl, rfl, rfl, held, first, single, value, chained.refill cache, ?_, ?_⟩
    · dsimp only
      rw [produced]
      exact .listing grows
    · exact consuming.keeps rfl rfl (fun _ => rfl) (fun _ => rfl) (fun _ _ => rfl)
        (fun _ apart => ⟨apart, rfl⟩) (fun _ => ⟨[], (List.append_nil _).symm⟩)
        fun _ _ _ absurd_ => absurd_.elim

/-- `next_w` lists the buffer as in use. -/
theorem produce_listing_matched {data : α} {t : Nat} {seen : Set (Answer α)}
    (positive : 0 < u.size) (parted : Parted u (.listing data t) consumer queue held first)
    (consuming : UConsuming u (.listing data t) held first consumer (glance .consumer))
    (grows : u.fixedsize = false) (produced : glance .producer = .called (.push data) seen)
    (moves : u.produce (.listing data t) = some (next, u')) :
    Matched u.fixedsize u.size ⟨queue, glance⟩ ⟨u', next, consumer⟩ := by
  obtain ⟨single, value, chained⟩ := parted
  obtain ⟨rfl, rfl⟩ := (Prod.mk.injEq ..).mp (Option.some.inj moves)
  have apart : t ∉ u.chain consumer := fun inside =>
    (List.nodup_append.mp chained.distinct).2.2 t inside t (List.mem_cons_self ..) rfl
  have blank : u.heap t = .blank u.size := chained.blank t (List.mem_cons_self ..)
  have chain : ({ u with inuse := u.inuse ++ [t] } : UswsrBuffer α).chain consumer =
      u.chain consumer ++ [t] := by
    simp [UswsrBuffer.chain, UswsrBuffer.rest]
  have other : consumer.handed = none → u.bufR ≠ t := fun still same =>
    apart (by rw [UswsrBuffer.chain_eq still, same]; exact List.mem_cons_self ..)
  refine ⟨_, .inl rfl, rfl, rfl, _, _, ?_, ?_, chained.list positive, ?_, ?_⟩
  · intro fixed
    simp only [grows, Bool.false_eq_true] at fixed
  · dsimp only
    rw [chain, flatMap_list apart, value]
  · dsimp only
    rw [produced]
    exact .switching grows (by rw [blank]; rfl) (Function.update_self ..)
      (Function.update_self ..)
  · refine consuming.keeps rfl rfl (fun _ => rfl)
      (fun still => Function.update_of_ne (other still) _ _) (fun _ _ => rfl)
      (fun still apart => ⟨apart, Function.update_of_ne (other still) _ _⟩)
      (fun still => ⟨[], ?_⟩) fun _ _ _ absurd_ => absurd_.elim
    rw [Function.update_of_ne (other still), List.append_nil]

/-- `push` goes on to the new buffer. -/
theorem produce_switching_matched {data : α} {t : Nat} {seen : Set (Answer α)}
    (positive : 0 < u.size) (parted : Parted u (.switching data t) consumer queue held first)
    (consuming : UConsuming u (.switching data t) held first consumer (glance .consumer))
    (grows : u.fixedsize = false) (at_begin : (u.heap t).pwrite = 0) (first_eq : first t = 0)
    (held_eq : held t = []) (produced : glance .producer = .called (.push data) seen)
    (moves : u.produce (.switching data t) = some (next, u')) :
    Matched u.fixedsize u.size ⟨queue, glance⟩ ⟨u', next, consumer⟩ := by
  obtain ⟨single, value, chained⟩ := parted
  obtain ⟨rfl, rfl⟩ := (Prod.mk.injEq ..).mp (Option.some.inj moves)
  have listed : t ∈ u.rest consumer := chained.fresh_mem t (List.mem_cons_self ..)
  have other : consumer.handed = none → u.bufR ≠ t := fun still same => by
    have distinct := chained.chain_nodup
    rw [UswsrBuffer.chain_eq still] at distinct
    rw [UswsrBuffer.rest_eq still, ← same] at listed
    exact (List.nodup_cons.mp distinct).1 listed
  refine ⟨_, .inl rfl, rfl, rfl, held, first, ?_, value, chained.goOn, ?_, ?_⟩
  · intro fixed
    simp only [grows, Bool.false_eq_true] at fixed
  · dsimp only
    rw [produced]
    refine .testing ?_ ?_
    · show (u.heap t).pwrite = place u.size (first t) (held t).length
      rw [at_begin, first_eq, held_eq, List.length_nil, place_zero positive]
    · show (held t).length < u.size
      rw [held_eq]
      exact positive
  · exact consuming.keeps rfl rfl (fun _ => rfl) (fun _ => rfl) (fun _ _ => rfl)
      (fun still _ => ⟨other still, rfl⟩) (fun _ => ⟨[], (List.append_nil _).symm⟩)
      fun _ _ _ absurd_ => absurd_.elim

/-- `push` of the buffer tests its cell. -/
theorem produce_testing_matched {data : α} {seen : Set (Answer α)}
    (parted : Parted u (.testing data) consumer queue held first)
    (consuming : UConsuming u (.testing data) held first consumer (glance .consumer))
    (at_end : (u.heap u.bufW).pwrite = place u.size (first u.bufW) (held u.bufW).length)
    (room : (held u.bufW).length < u.size)
    (produced : glance .producer = .called (.push data) seen)
    (moves : u.produce (.testing data) = some (next, u')) :
    Matched u.fixedsize u.size ⟨queue, glance⟩ ⟨u', next, consumer⟩ := by
  obtain ⟨single, value, chained⟩ := parted
  have tested := (chained.available_iff at_end).mpr room
  simp only [UswsrBuffer.produce, tested, if_true, Option.some.injEq, Prod.mk.injEq] at moves
  obtain ⟨rfl, rfl⟩ := moves
  refine ⟨_, .inl rfl, related_producer rfl rfl single value chained consuming rfl rfl
    (fun _ => trivial) ?_ rfl⟩
  rw [produced]
  exact .storing at_end room

/-- `push` of the buffer stores: this is where `push` takes effect. -/
theorem produce_storing_matched {data : α} {seen : Set (Answer α)}
    (parted : Parted u (.storing data) consumer queue held first)
    (consuming : UConsuming u (.storing data) held first consumer (glance .consumer))
    (at_end : (u.heap u.bufW).pwrite = place u.size (first u.bufW) (held u.bufW).length)
    (room : (held u.bufW).length < u.size)
    (produced : glance .producer = .called (.push data) seen)
    (moves : u.produce (.storing data) = some (next, u')) :
    Matched u.fixedsize u.size ⟨queue, glance⟩ ⟨u', next, consumer⟩ := by
  obtain ⟨single, value, chained⟩ := parted
  obtain ⟨size_w, slots_w⟩ := chained.slots_w
  obtain ⟨rfl, rfl⟩ := (Prod.mk.injEq ..).mp (Option.some.inj moves)
  obtain ⟨closed, chain⟩ := chained.writer
  have distinct := chained.chain_nodup
  rw [chain] at distinct
  have bound : u.fixedsize = true → queue.length < u.size := fun fixed => by
    rw [value, single fixed]
    simpa using room
  have known := chained.store .advancing
    ((u.heap u.bufW).write (u.heap u.bufW).pwrite (some data)) (held u.bufW ++ [data])
    rfl rfl rfl size_w rfl (by
      dsimp only [SwsrBuffer.write]
      rw [at_end]
      exact slots_w.push room data) (.inl (by simp))
  refine ⟨_, .inr (.act produced (.pushed bound)), rfl, rfl, _, first, single, ?_, known, ?_, ?_⟩
  · show queue ++ [data] = (u.chain consumer).flatMap _
    rw [value, chain]
    exact (flatMap_store distinct).symm
  · dsimp only
    rw [Function.update_self]
    refine .advancing ?_
    show SwsrBuffer.advance u.size
      (Function.update u.heap u.bufW _ u.bufW : SwsrBuffer α).pwrite = place u.size
        (first u.bufW) (Function.update held u.bufW _ u.bufW).length
    rw [Function.update_self, Function.update_self, List.length_append, List.length_singleton]
    dsimp only [SwsrBuffer.write]
    rw [at_end, SwsrBuffer.advance_place slots_w.start_lt room]
  · dsimp only
    rw [Function.update_of_ne (by decide)]
    refine consuming.keeps rfl rfl (fun _ => ?_) (fun _ => rfl) (fun a inside => ?_)
      (fun still apart => ⟨apart, ?_⟩) (fun still => ?_) fun still _ same _ => .inl ?_
    · by_cases same : u.bufR = u.bufW <;> simp [UswsrBuffer.change, SwsrBuffer.write, same]
    · exact Function.update_of_ne (chained.stale_ne a inside) _ _
    · exact Function.update_of_ne apart _ _
    · by_cases same : u.bufR = u.bufW
      · exact ⟨[data], by rw [same, Function.update_self]⟩
      · exact ⟨[], by rw [Function.update_of_ne same, List.append_nil]⟩
    · rw [same, Function.update_self]
      simp

/-- `push` of the buffer moves `pwrite`. -/
theorem produce_advancing_matched (parted : Parted u .advancing consumer queue held first)
    (consuming : UConsuming u .advancing held first consumer (glance .consumer))
    (before : SwsrBuffer.advance u.size (u.heap u.bufW).pwrite =
      place u.size (first u.bufW) (held u.bufW).length)
    (produced : glance .producer = .acted (.pushed true))
    (moves : u.produce .advancing = some (next, u')) :
    Matched u.fixedsize u.size ⟨queue, glance⟩ ⟨u', next, consumer⟩ := by
  obtain ⟨single, value, chained⟩ := parted
  obtain ⟨size_w, slots_w⟩ := chained.slots_w
  obtain ⟨rfl, rfl⟩ := (Prod.mk.injEq ..).mp (Option.some.inj moves)
  have known := chained.store (.returning true)
    { u.heap u.bufW with
      pwrite := SwsrBuffer.advance (u.heap u.bufW).size (u.heap u.bufW).pwrite }
    (held u.bufW) rfl rfl rfl size_w rfl slots_w (.inr ⟨rfl, fun absurd_ => absurd_⟩)
  rw [Function.update_eq_self] at known
  refine ⟨_, .inl rfl, rfl, rfl, held, first, single, value, known, ?_, ?_⟩
  · dsimp only
    rw [produced]
    refine .returning ?_
    show (Function.update u.heap u.bufW _ u.bufW : SwsrBuffer α).pwrite = _
    rw [Function.update_self]
    dsimp only
    rw [size_w]
    exact before
  · refine consuming.keeps rfl rfl (fun _ => ?_) (fun _ => rfl) (fun a inside => ?_)
      (fun still apart => ⟨apart, rfl⟩) (fun still => ⟨[], (List.append_nil _).symm⟩)
      fun _ _ _ absurd_ => absurd_.elim
    · by_cases same : u.bufR = u.bufW <;> simp [UswsrBuffer.change, same]
    · exact Function.update_of_ne (chained.stale_ne a inside) _ _

/-- The step of the producer is matched. -/
theorem produce_matched (positive : 0 < size) (moves : u.produce producer = some (next, u'))
    (related : Related fixedsize size ⟨u, producer, consumer⟩ ⟨queue, glance⟩) :
    Matched fixedsize size ⟨queue, glance⟩ ⟨u', next, consumer⟩ := by
  obtain ⟨fixed, sized, held, first, single, value, chained, producing, consuming⟩ := related
  dsimp only at fixed sized single value chained producing consuming
  subst fixed sized
  have parted : Parted u producer consumer queue held first := ⟨single, value, chained⟩
  generalize produced : glance .producer = said at producing
  cases producing with
  | pushing at_end => exact produce_pushing_matched parted consuming at_end produced moves
  | refilling grows => exact produce_refilling_matched parted consuming grows produced moves
  | listing grows => exact produce_listing_matched positive parted consuming grows produced moves
  | switching grows at_begin first_eq held_eq =>
    exact produce_switching_matched positive parted consuming grows at_begin first_eq held_eq
      produced moves
  | testing at_end room =>
    exact produce_testing_matched parted consuming at_end room produced moves
  | storing at_end room =>
    exact produce_storing_matched parted consuming at_end room produced moves
  | advancing before => exact produce_advancing_matched parted consuming before produced moves
  | idle | allocating | returning => cases moves

/-- The producer's buffer in front of the consumer's changes. -/
theorem producing_take {b : SwsrBuffer α} {now : List α} {start : Nat}
    (chained : Chained u producer consumer held first) (still : consumer.handed = none)
    (producing : UProducing u held first producer (glance .producer))
    (pwrite : b.pwrite = (u.heap u.bufR).pwrite)
    (behind : place u.size start now.length =
      place u.size (first u.bufR) (held u.bufR).length)
    (fewer : now.length ≤ (held u.bufR).length) :
    UProducing (u.change u.bufR b) (Function.update held u.bufR now)
      (Function.update first u.bufR start) producer (glance .producer) := by
  refine producing.keeps rfl rfl rfl ?_ ?_ ?_ fun t fresh => ?_
  · by_cases same : u.bufW = u.bufR <;> simp [UswsrBuffer.change, same, pwrite]
  · by_cases same : u.bufW = u.bufR
    · simp [same, behind]
    · simp [same]
  · by_cases same : u.bufW = u.bufR
    · simpa [same] using fewer
    · simp [same]
  · have listed := chained.fresh_mem t fresh
    rw [UswsrBuffer.rest_eq still] at listed
    have distinct := chained.chain_nodup
    rw [UswsrBuffer.chain_eq still] at distinct
    have apart : t ≠ u.bufR := fun same => (List.nodup_cons.mp distinct).1 (same ▸ listed)
    simp [UswsrBuffer.change, apart]

/-- `pop` asks whether its buffer is empty. -/
theorem consume_popping_matched {seen : Set (Answer α)}
    (parted : Parted u producer .popping queue held first)
    (producing : UProducing u held first producer (glance .producer))
    (at_first : (u.heap u.bufR).pread = first u.bufR)
    (consumed : glance .consumer = .called .pop seen)
    (moves : u.consume .popping = some (next', u')) :
    Matched u.fixedsize u.size ⟨queue, glance⟩ ⟨u', producer, next'⟩ := by
  obtain ⟨single, value, chained⟩ := parted
  simp only [UswsrBuffer.consume] at moves
  split_ifs at moves with free
  · obtain ⟨rfl, rfl⟩ := (Prod.mk.injEq ..).mp (Option.some.inj moves)
    by_cases shared : u.bufR = u.bufW ∧ queue = []
    · -- the producer is at the same empty buffer, so the whole queue is empty now
      obtain ⟨shared, rfl⟩ := shared
      refine ⟨_, .inr (.witness consumed .empty), related_consumer rfl rfl single value chained
        producing rfl rfl ?_ (Function.update_of_ne (by decide) _ _)⟩
      rw [Function.update_self]
      exact .comparing at_first fun _ => Set.mem_insert _ _
    · refine ⟨_, .inl rfl, related_consumer rfl rfl single value chained producing rfl rfl ?_ rfl⟩
      rw [consumed]
      refine .comparing at_first fun same => absurd ⟨same, ?_⟩ shared
      have drained := (chained.empty_iff rfl at_first).mp free
      rw [value, UswsrBuffer.chain_eq rfl, chained.chain_shared rfl same, List.flatMap_cons,
        drained, List.nil_append]
      exact List.flatMap_eq_nil_iff.mpr producing.fresh_held
  · obtain ⟨rfl, rfl⟩ := (Prod.mk.injEq ..).mp (Option.some.inj moves)
    refine ⟨_, .inl rfl, related_consumer rfl rfl single value chained producing rfl rfl ?_ rfl⟩
    rw [consumed]
    exact .testing at_first
      (.inl fun drained => free ((chained.empty_iff rfl at_first).mpr drained))

/-- `pop` compares the two buffers. -/
theorem consume_comparing_matched {seen : Set (Answer α)}
    (parted : Parted u producer .comparing queue held first)
    (producing : UProducing u held first producer (glance .producer))
    (at_first : (u.heap u.bufR).pread = first u.bufR) (known : u.bufR = u.bufW → .nothing ∈ seen)
    (consumed : glance .consumer = .called .pop seen)
    (moves : u.consume .comparing = some (next', u')) :
    Matched u.fixedsize u.size ⟨queue, glance⟩ ⟨u', producer, next'⟩ := by
  obtain ⟨single, value, chained⟩ := parted
  simp only [UswsrBuffer.consume] at moves
  split_ifs at moves with shared
  · obtain ⟨rfl, rfl⟩ := (Prod.mk.injEq ..).mp (Option.some.inj moves)
    refine ⟨_, .inl rfl, related_consumer rfl rfl single value chained producing rfl rfl ?_ rfl⟩
    rw [consumed]
    exact .recalled at_first (known shared)
  · obtain ⟨rfl, rfl⟩ := (Prod.mk.injEq ..).mp (Option.some.inj moves)
    refine ⟨_, .inl rfl, related_consumer rfl rfl single value chained producing rfl rfl ?_ rfl⟩
    rw [consumed]
    exact .checking at_first shared

/-- `pop` asks again whether its buffer is empty. -/
theorem consume_checking_matched {seen : Set (Answer α)}
    (parted : Parted u producer .checking queue held first)
    (producing : UProducing u held first producer (glance .producer))
    (at_first : (u.heap u.bufR).pread = first u.bufR) (left : u.bufR ≠ u.bufW)
    (consumed : glance .consumer = .called .pop seen)
    (moves : u.consume .checking = some (next', u')) :
    Matched u.fixedsize u.size ⟨queue, glance⟩ ⟨u', producer, next'⟩ := by
  obtain ⟨single, value, chained⟩ := parted
  simp only [UswsrBuffer.consume] at moves
  split_ifs at moves with free
  · obtain ⟨rfl, rfl⟩ := (Prod.mk.injEq ..).mp (Option.some.inj moves)
    refine ⟨_, .inl rfl, related_consumer rfl rfl single value chained producing rfl rfl ?_ rfl⟩
    rw [consumed]
    exact .nexting left ((chained.empty_iff rfl at_first).mp free)
  · obtain ⟨rfl, rfl⟩ := (Prod.mk.injEq ..).mp (Option.some.inj moves)
    refine ⟨_, .inl rfl, related_consumer rfl rfl single value chained producing rfl rfl ?_ rfl⟩
    rw [consumed]
    exact .testing at_first
      (.inl fun drained => free ((chained.empty_iff rfl at_first).mpr drained))

/-- `next_r` takes the next buffer. -/
theorem consume_nexting_matched {seen : Set (Answer α)}
    (parted : Parted u producer .nexting queue held first)
    (producing : UProducing u held first producer (glance .producer)) (left : u.bufR ≠ u.bufW)
    (drained : held u.bufR = []) (consumed : glance .consumer = .called .pop seen)
    (moves : u.consume .nexting = some (next', u')) :
    Matched u.fixedsize u.size ⟨queue, glance⟩ ⟨u', producer, next'⟩ := by
  obtain ⟨single, value, chained⟩ := parted
  obtain ⟨tmp, behind, listed⟩ := List.exists_cons_of_ne_nil (chained.inuse_ne_nil rfl left)
  simp only [UswsrBuffer.consume, listed, Option.some.injEq, Prod.mk.injEq] at moves
  obtain ⟨rfl, rfl⟩ := moves
  refine ⟨_, .inl rfl, rfl, rfl, held, first, ?_, ?_, chained.next listed left, ?_, ?_⟩
  · intro fixed
    have whole := single fixed
    rw [UswsrBuffer.chain_eq rfl] at whole
    exact absurd (List.cons.inj whole).1 left
  · show queue = (tmp :: behind).flatMap held
    rw [value, UswsrBuffer.chain_eq rfl, listed, List.flatMap_cons, drained, List.nil_append]
  · exact producing.keeps rfl rfl rfl rfl rfl le_rfl fun _ _ => ⟨rfl, rfl, rfl⟩
  · dsimp only
    rw [consumed]
    exact .releasing (chained.slots_r rfl).1

/-- `release` resets the buffer. -/
theorem consume_releasing_matched {tmp : Nat} {seen : Set (Answer α)}
    (parted : Parted u producer (.releasing tmp) queue held first)
    (producing : UProducing u held first producer (glance .producer))
    (sized : (u.heap u.bufR).size = u.size) (consumed : glance .consumer = .called .pop seen)
    (moves : u.consume (.releasing tmp) = some (next', u')) :
    Matched u.fixedsize u.size ⟨queue, glance⟩ ⟨u', producer, next'⟩ := by
  obtain ⟨single, value, chained⟩ := parted
  obtain ⟨rfl, rfl⟩ := (Prod.mk.injEq ..).mp (Option.some.inj moves)
  have apart := chained.stale_ne u.bufR (List.mem_singleton_self _)
  refine ⟨_, .inl rfl, rfl, rfl, held, first, single, value, chained.release, ?_, ?_⟩
  · refine producing.keeps rfl rfl rfl ?_ rfl le_rfl fun t fresh => ⟨?_, rfl, rfl⟩
    · simp [UswsrBuffer.change, apart.symm]
    · have other : t ≠ u.bufR := fun same =>
        (List.nodup_append.mp chained.distinct).2.2 t
          (UswsrBuffer.rest_subset (chained.fresh_mem t fresh)) u.bufR
          (List.mem_append_right _ (List.mem_append_left _ (List.mem_singleton_self _))) same
      simp [UswsrBuffer.change, other]
  · dsimp only
    rw [consumed]
    refine .caching ?_
    simp [UswsrBuffer.change, SwsrBuffer.reset, SwsrBuffer.blank, sized]

/-- `release` gives the buffer to the cache, or drops it. -/
theorem consume_caching_matched {tmp : Nat} {seen : Set (Answer α)}
    (parted : Parted u producer (.caching tmp) queue held first)
    (producing : UProducing u held first producer (glance .producer))
    (blank : u.heap u.bufR = .blank u.size) (consumed : glance .consumer = .called .pop seen)
    (moves : u.consume (.caching tmp) = some (next', u')) :
    Matched u.fixedsize u.size ⟨queue, glance⟩ ⟨u', producer, next'⟩ := by
  obtain ⟨single, value, chained⟩ := parted
  simp only [UswsrBuffer.consume, Option.some.injEq, Prod.mk.injEq] at moves
  obtain ⟨rfl, rfl⟩ := moves
  split
  · refine ⟨_, .inl rfl, rfl, rfl, held, first, single, value, chained.cache blank, ?_, ?_⟩
    · exact producing.keeps rfl rfl rfl rfl rfl le_rfl fun _ _ => ⟨rfl, rfl, rfl⟩
    · dsimp only
      rw [consumed]
      exact .switching
  · refine ⟨_, .inl rfl, rfl, rfl, held, first, single, value, chained.drop, ?_, ?_⟩
    · exact producing.keeps rfl rfl rfl rfl rfl le_rfl fun _ _ => ⟨rfl, rfl, rfl⟩
    · dsimp only
      rw [consumed]
      exact .switching

/-- `pop` goes on to the next buffer. -/
theorem consume_switching_matched {tmp : Nat} {seen : Set (Answer α)}
    (parted : Parted u producer (.switching tmp) queue held first)
    (producing : UProducing u held first producer (glance .producer))
    (consumed : glance .consumer = .called .pop seen)
    (moves : u.consume (.switching tmp) = some (next', u')) :
    Matched u.fixedsize u.size ⟨queue, glance⟩ ⟨u', producer, next'⟩ := by
  obtain ⟨single, value, chained⟩ := parted
  obtain ⟨rfl, rfl⟩ := (Prod.mk.injEq ..).mp (Option.some.inj moves)
  obtain ⟨at_begin, pread⟩ := chained.untouched tmp (List.mem_cons_self ..)
  refine ⟨_, .inl rfl, rfl, rfl, held, first, single, value, chained.moveOn, ?_, ?_⟩
  · exact producing.keeps rfl rfl rfl rfl rfl le_rfl fun _ _ => ⟨rfl, rfl, rfl⟩
  · dsimp only
    rw [consumed]
    refine .testing (pread.trans at_begin.symm) ?_
    have moved := chained.moveOn
    rcases chained.filled tmp (List.mem_cons_self ..) with some_held | listed | ⟨shared, at_cell⟩
    · exact .inl some_held
    · have inside := moved.fresh_mem tmp listed
      have distinct := moved.chain_nodup
      rw [UswsrBuffer.chain_eq rfl] at distinct
      exact absurd inside (List.nodup_cons.mp distinct).1
    · refine .inr ⟨?_, shared, at_cell⟩
      have behind := moved.chain_shared rfl shared
      cases producer <;> first | exact behind | exact at_cell.elim

/-- `pop` of the buffer tests its cell. -/
theorem consume_testing_matched {seen : Set (Answer α)}
    (parted : Parted u producer .testing queue held first)
    (producing : UProducing u held first producer (glance .producer))
    (at_first : (u.heap u.bufR).pread = first u.bufR)
    (known : held u.bufR ≠ [] ∨ u.inuse = [] ∧ u.bufR = u.bufW ∧ producer.newly)
    (consumed : glance .consumer = .called .pop seen)
    (moves : u.consume .testing = some (next', u')) :
    Matched u.fixedsize u.size ⟨queue, glance⟩ ⟨u', producer, next'⟩ := by
  obtain ⟨single, value, chained⟩ := parted
  simp only [UswsrBuffer.consume] at moves
  split_ifs at moves with free
  · obtain ⟨rfl, rfl⟩ := (Prod.mk.injEq ..).mp (Option.some.inj moves)
    have drained := (chained.empty_iff rfl at_first).mp free
    obtain some_held | ⟨none_listed, -⟩ := known
    · exact absurd drained some_held
    · have whole : queue = [] := by
        rw [value, UswsrBuffer.chain_eq rfl, none_listed]
        simp [drained]
      subst whole
      refine ⟨_, .inr (.act consumed .empty), related_consumer rfl rfl single value chained
        producing rfl rfl ?_ (Function.update_of_ne (by decide) _ _)⟩
      rw [Function.update_self]
      exact .returning at_first
  · obtain ⟨rfl, rfl⟩ := (Prod.mk.injEq ..).mp (Option.some.inj moves)
    refine ⟨_, .inl rfl, related_consumer rfl rfl single value chained producing rfl rfl ?_ rfl⟩
    rw [consumed]
    exact .reading at_first fun drained => free ((chained.empty_iff rfl at_first).mpr drained)

/-- `pop` of the buffer reads its cell. -/
theorem consume_reading_matched {seen : Set (Answer α)}
    (parted : Parted u producer .reading queue held first)
    (producing : UProducing u held first producer (glance .producer))
    (at_first : (u.heap u.bufR).pread = first u.bufR) (known : held u.bufR ≠ [])
    (consumed : glance .consumer = .called .pop seen)
    (moves : u.consume .reading = some (next', u')) :
    Matched u.fixedsize u.size ⟨queue, glance⟩ ⟨u', producer, next'⟩ := by
  obtain ⟨single, value, chained⟩ := parted
  obtain ⟨rfl, rfl⟩ := (Prod.mk.injEq ..).mp (Option.some.inj moves)
  obtain ⟨x, rest, held_eq⟩ := List.exists_cons_of_ne_nil known
  have slots := (chained.slots_r rfl).2
  rw [held_eq] at slots
  refine ⟨_, .inl rfl, related_consumer rfl rfl single value chained producing rfl rfl ?_ rfl⟩
  rw [consumed, at_first, slots.toWindow.first]
  exact .clearing at_first (by rw [held_eq]; rfl)

/-- `inc` frees the cell: this is where `pop` takes effect. -/
theorem consume_clearing_matched {x : α} {seen : Set (Answer α)}
    (parted : Parted u producer (.clearing (some x)) queue held first)
    (producing : UProducing u held first producer (glance .producer))
    (at_first : (u.heap u.bufR).pread = first u.bufR) (known : (held u.bufR).head? = some x)
    (consumed : glance .consumer = .called .pop seen)
    (moves : u.consume (.clearing (some x)) = some (next', u')) :
    Matched u.fixedsize u.size ⟨queue, glance⟩ ⟨u', producer, next'⟩ := by
  obtain ⟨single, value, chained⟩ := parted
  obtain ⟨rfl, rfl⟩ := (Prod.mk.injEq ..).mp (Option.some.inj moves)
  obtain ⟨rest, held_eq⟩ := List.head?_eq_some_iff.mp known
  obtain ⟨size_r, slots⟩ := chained.slots_r rfl
  rw [held_eq] at slots
  have length_le := slots.length_le
  rw [List.length_cons] at length_le
  have distinct := chained.chain_nodup
  rw [UswsrBuffer.chain_eq rfl] at distinct value
  have taken := chained.take (.advancing (some x))
    ((u.heap u.bufR).write (u.heap u.bufR).pread none) rest (place u.size (first u.bufR) 1)
    rfl rfl rfl rfl size_r (by
      dsimp only [SwsrBuffer.write]
      rw [at_first]
      exact slots.pop)
  rw [flatMap_take distinct held_eq] at value
  subst value
  refine ⟨_, .inr (.act consumed .popped), rfl, rfl, _, _, single, ?_, taken, ?_, ?_⟩
  · rfl
  · dsimp only
    rw [Function.update_of_ne (by decide)]
    refine producing_take chained rfl producing rfl ?_ ?_
    · rw [place_next slots.start_lt length_le, held_eq, List.length_cons]
    · rw [held_eq]
      exact Nat.le_succ _
  · dsimp only
    rw [Function.update_self]
    refine .advancing ?_
    show SwsrBuffer.advance u.size (Function.update u.heap u.bufR _ u.bufR : SwsrBuffer α).pread =
      Function.update first u.bufR _ u.bufR
    rw [Function.update_self, Function.update_self]
    dsimp only [SwsrBuffer.write]
    rw [at_first]
    exact SwsrBuffer.advance_eq slots.start_lt

/-- `inc` moves `pread`. -/
theorem consume_advancing_matched {data : Option α}
    (parted : Parted u producer (.advancing data) queue held first)
    (producing : UProducing u held first producer (glance .producer))
    (before : SwsrBuffer.advance u.size (u.heap u.bufR).pread = first u.bufR)
    (consumed : glance .consumer = .acted (.popped data))
    (moves : u.consume (.advancing data) = some (next', u')) :
    Matched u.fixedsize u.size ⟨queue, glance⟩ ⟨u', producer, next'⟩ := by
  obtain ⟨single, value, chained⟩ := parted
  obtain ⟨rfl, rfl⟩ := (Prod.mk.injEq ..).mp (Option.some.inj moves)
  obtain ⟨size_r, slots⟩ := chained.slots_r rfl
  have taken := chained.take (.returning (.popped data))
    { u.heap u.bufR with
      pread := SwsrBuffer.advance (u.heap u.bufR).size (u.heap u.bufR).pread }
    (held u.bufR) (first u.bufR) rfl rfl rfl rfl size_r slots
  rw [Function.update_eq_self, Function.update_eq_self] at taken
  refine ⟨_, .inl rfl, rfl, rfl, held, first, single, value, taken, ?_, ?_⟩
  · have kept := producing_take (b := { u.heap u.bufR with
        pread := SwsrBuffer.advance (u.heap u.bufR).size (u.heap u.bufR).pread })
      chained rfl producing rfl rfl le_rfl
    rwa [Function.update_eq_self, Function.update_eq_self] at kept
  · dsimp only
    rw [consumed]
    refine .returning ?_
    show (Function.update u.heap u.bufR _ u.bufR : SwsrBuffer α).pread = _
    rw [Function.update_self]
    dsimp only
    rw [size_r]
    exact before

/-- The step of the consumer is matched. -/
theorem consume_matched (moves : u.consume consumer = some (next', u'))
    (related : Related fixedsize size ⟨u, producer, consumer⟩ ⟨queue, glance⟩) :
    Matched fixedsize size ⟨queue, glance⟩ ⟨u', producer, next'⟩ := by
  obtain ⟨fixed, sized, held, first, single, value, chained, producing, consuming⟩ := related
  dsimp only at fixed sized single value chained producing consuming
  subst fixed sized
  have parted : Parted u producer consumer queue held first := ⟨single, value, chained⟩
  generalize consumed : glance .consumer = said at consuming
  cases consuming with
  | popping at_first => exact consume_popping_matched parted producing at_first consumed moves
  | comparing at_first known =>
    exact consume_comparing_matched parted producing at_first known consumed moves
  | checking at_first left =>
    exact consume_checking_matched parted producing at_first left consumed moves
  | nexting left drained =>
    exact consume_nexting_matched parted producing left drained consumed moves
  | releasing sized => exact consume_releasing_matched parted producing sized consumed moves
  | caching blank => exact consume_caching_matched parted producing blank consumed moves
  | switching => exact consume_switching_matched parted producing consumed moves
  | testing at_first known =>
    exact consume_testing_matched parted producing at_first known consumed moves
  | reading at_first known =>
    exact consume_reading_matched parted producing at_first known consumed moves
  | clearing at_first known =>
    exact consume_clearing_matched parted producing at_first known consumed moves
  | advancing before => exact consume_advancing_matched parted producing before consumed moves
  | idle | returning | recalled => cases moves

end Steps

/-- Every step is matched by at most one step of the queue. -/
theorem step_matched {fixedsize : Bool} {size : Nat} (positive : 0 < size) (state : UChannel α)
    (event : Option (Event Party (Operation α) (Answer α))) (next : UChannel α)
    (object : Witnessed Party (List α) (Operation α) (Answer α))
    (related : Related fixedsize size state object) (moves : Step state event next) :
    ∃ object', (object' = object ∧ event = none ∨
      Witnessed.Step (Unbounded fixedsize size) object event object') ∧
        Related fixedsize size next object' := by
  obtain ⟨queue, glance⟩ := object
  cases moves with
  | produce moves =>
    obtain ⟨object', same | acts, related'⟩ := produce_matched positive moves related
    · exact ⟨object', .inl ⟨same, rfl⟩, related'⟩
    · exact ⟨object', .inr acts, related'⟩
  | consume moves =>
    obtain ⟨object', same | acts, related'⟩ := consume_matched moves related
    · exact ⟨object', .inl ⟨same, rfl⟩, related'⟩
    · exact ⟨object', .inr acts, related'⟩
  | push data =>
    obtain ⟨fixed, sized, held, first, single, value, chained, producing, consuming⟩ := related
    dsimp only at fixed sized single value chained producing consuming
    generalize produced : glance .producer = said at producing
    cases producing with
    | idle at_end =>
      refine ⟨_, .inr (.call produced), related_producer fixed sized single value chained
        consuming rfl rfl (fun absurd_ => absurd_.elim) ?_ (Function.update_of_ne (by decide) _ _)⟩
      rw [Function.update_self]
      exact .pushing at_end
  | allocate free moves =>
    rename_i u u' consumer data address
    obtain ⟨fixed, sized, held, first, single, value, chained, producing, consuming⟩ := related
    dsimp only at fixed sized single value chained producing consuming
    subst sized
    have filled : ¬u.size = 0 := by omega
    simp only [UswsrBuffer.allocate, SwsrBuffer.init, filled, if_false, Option.map_some,
      Option.some.injEq] at moves
    subst moves
    have apart : ∀ a ∈ u.chain consumer ++ (consumer.stale u.bufR ++ u.bufcache), a ≠ address :=
      fun a inside same => by
        have taken := (chained.live a).mpr inside
        rw [same, free] at taken
        cases taken
    refine ⟨_, .inl ⟨rfl, rfl⟩, fixed, rfl, held, first, single, value, chained.allocate free, ?_,
      ?_⟩
    · generalize produced : glance .producer = said at producing
      cases producing with
      | allocating grows =>
        dsimp only
        rw [produced]
        exact .listing grows
    · refine consuming.keeps rfl rfl (fun still => ?_) (fun _ => rfl) (fun a inside => ?_)
        (fun _ apart => ⟨apart, rfl⟩) (fun _ => ⟨[], (List.append_nil _).symm⟩)
        fun _ _ _ absurd_ => absurd_.elim
      · have inside : u.bufR ∈ u.chain consumer := by
          rw [UswsrBuffer.chain_eq still]
          exact List.mem_cons_self ..
        have other := apart _ (List.mem_append_left _ inside)
        simp [UswsrBuffer.change, other]
      · have other := apart a (List.mem_append_right _ (List.mem_append_left _ inside))
        simp [UswsrBuffer.change, other]
  | pushed =>
    obtain ⟨fixed, sized, held, first, single, value, chained, producing, consuming⟩ := related
    dsimp only at fixed sized single value chained producing consuming
    generalize produced : glance .producer = said at producing
    cases producing with
    | returning at_end =>
      refine ⟨_, .inr (.answer produced), related_producer fixed sized single value chained
        consuming rfl rfl (fun absurd_ => absurd_.elim) ?_ (Function.update_of_ne (by decide) _ _)⟩
      rw [Function.update_self]
      exact .idle at_end
  | pop =>
    obtain ⟨fixed, sized, held, first, single, value, chained, producing, consuming⟩ := related
    dsimp only at fixed sized single value chained producing consuming
    generalize consumed : glance .consumer = said at consuming
    cases consuming with
    | idle at_first =>
      refine ⟨_, .inr (.call consumed), related_consumer fixed sized single value chained
        producing rfl rfl ?_ (Function.update_of_ne (by decide) _ _)⟩
      rw [Function.update_self]
      exact .popping at_first
  | popped =>
    obtain ⟨fixed, sized, held, first, single, value, chained, producing, consuming⟩ := related
    dsimp only at fixed sized single value chained producing consuming
    generalize consumed : glance .consumer = said at consuming
    cases consuming with
    | returning at_first =>
      refine ⟨_, .inr (.answer consumed), related_consumer fixed sized single value chained
        producing rfl rfl ?_ (Function.update_of_ne (by decide) _ _)⟩
      rw [Function.update_self]
      exact .idle at_first
    | recalled at_first known =>
      refine ⟨_, .inr (.recalled consumed known), related_consumer fixed sized single value chained
        producing rfl rfl ?_ (Function.update_of_ne (by decide) _ _)⟩
      rw [Function.update_self]
      exact .idle at_first

/-- The buffer of the constructor stands for the empty queue. -/
theorem init_related {fixedsize : Bool} {size address : Nat} {u : UswsrBuffer α}
    (made : UswsrBuffer.init size fixedsize address = some u) :
    0 < size ∧ Related fixedsize size ⟨u, .idle, .idle⟩ (Witnessed.fresh []) := by
  unfold UswsrBuffer.init SwsrBuffer.init at made
  split_ifs at made with filled
  · cases made
  obtain rfl := Option.some.inj made
  have positive : 0 < size := Nat.pos_of_ne_zero filled
  refine ⟨positive, rfl, rfl, fun _ => [], fun _ => 0, fun _ => rfl, rfl, {
    writer := ⟨[], rfl⟩
    slots := fun _ _ => ⟨rfl, .empty positive⟩
    untouched := fun _ absurd_ => nomatch absurd_
    filled := fun _ absurd_ => nomatch absurd_
    distinct := List.nodup_singleton _
    live := fun a => by
      show decide (a ≠ address) = false ↔ a ∈ [address]
      simp
    blank := fun _ absurd_ => nomatch absurd_ }, .idle (place_zero positive).symm, .idle rfl⟩

end UChannel

/-- Whatever the interleaving, the calls of one producer and one consumer answer as those of a
queue do that take effect at once; it has no bound unless the size is fixed. -/
theorem uswsrBuffer_linearizable (size : Nat) (fixedsize : Bool) (address : Nat)
    (u : UswsrBuffer α) (made : UswsrBuffer.init size fixedsize address = some u) :
    Linearizable (Unbounded fixedsize size) ([] : List α) UChannel.Step ⟨u, .idle, .idle⟩ :=
  Witnessed.linearizable (UChannel.Related fixedsize size) (UChannel.init_related made).2
    (UChannel.step_matched (UChannel.init_related made).1)

/-- A queue of buffers with two cells. -/
theorem uswsrBuffer_two : ∃ u : UswsrBuffer Nat, UswsrBuffer.init 2 false 0 = some u ∧
    Linearizable (Unbounded false 2) ([] : List Nat) UChannel.Step ⟨u, .idle, .idle⟩ :=
  ⟨_, rfl, uswsrBuffer_linearizable 2 false 0 _ rfl⟩

/-- Which buffers the parties may touch. -/
structure UChannel.Safe (state : UChannel α) : Prop where
  /-- The producer's buffer is allocated. -/
  writer : state.buffer.free state.buffer.bufW = false
  /-- The consumer's buffer is allocated, unless the consumer is about to leave it for good. -/
  reader : (∀ tmp, state.consumer ≠ .switching tmp) → state.buffer.free state.buffer.bufR = false
  /-- A buffer that the consumer gives back is at no other place. -/
  back : ∀ tmp, state.consumer = .releasing tmp ∨ state.consumer = .caching tmp →
    state.buffer.bufR ≠ state.buffer.bufW ∧ state.buffer.bufR ∉ state.buffer.inuse ∧
      state.buffer.bufR ∉ state.buffer.bufcache
  /-- A buffer in the cache is blank and not the producer's one. -/
  ready : ∀ a ∈ state.buffer.bufcache,
    a ≠ state.buffer.bufW ∧ state.buffer.heap a = .blank state.buffer.size
  /-- `next_r` finds a buffer. -/
  next : state.consumer = .nexting → state.buffer.inuse ≠ []
  /-- `push` of a buffer finds a free cell. -/
  room : ∀ data, state.producer = .testing data →
    (state.buffer.heap state.buffer.bufW).available = true
  /-- Every allocated buffer is at one place. -/
  places : (state.buffer.chain state.consumer ++ (state.producer.pending ++
      (state.consumer.stale state.buffer.bufR ++ state.buffer.bufcache))).Nodup ∧
    ∀ a, state.buffer.free a = false ↔ a ∈ state.buffer.chain state.consumer ++
      (state.producer.pending ++ (state.consumer.stale state.buffer.bufR ++ state.buffer.bufcache))

/-- The relation to the queue knows the places of the buffers. -/
theorem UChannel.Related.safe {fixedsize : Bool} {size : Nat} {state : UChannel α}
    {object : Witnessed Party (List α) (Operation α) (Answer α)}
    (related : UChannel.Related fixedsize size state object) : state.Safe := by
  obtain ⟨u, producer, consumer⟩ := state
  obtain ⟨-, -, held, first, -, -, chained, producing, consuming⟩ := related
  dsimp only at chained producing consuming
  have apart := (List.nodup_append.mp chained.distinct).2.2
  refine ⟨(chained.live _).mpr (List.mem_append_left _ chained.bufW_mem), fun on_way => ?_,
    fun tmp back => ?_, fun a inside => ⟨?_, ?_⟩, fun at_next => ?_, fun data at_cell => ?_,
    chained.distinct, chained.live⟩
  · refine (chained.live _).mpr ?_
    by_cases still : consumer.handed = none
    · refine List.mem_append_left _ ?_
      rw [UswsrBuffer.chain_eq still]
      exact List.mem_cons_self ..
    · refine List.mem_append_right _ (List.mem_append_right _ (List.mem_append_left _ ?_))
      cases consumer with
      | releasing | caching => exact List.mem_singleton_self _
      | switching tmp => exact absurd rfl (on_way tmp)
      | _ => exact absurd rfl still
  · have stale : u.bufR ∈ consumer.stale u.bufR := by
      dsimp only at back
      rcases back with rfl | rfl <;> exact List.mem_singleton_self _
    refine ⟨chained.stale_ne _ stale, fun listed => ?_, fun cached => ?_⟩
    · exact apart _ (UswsrBuffer.rest_subset (List.mem_append_right _ listed)) _
        (List.mem_append_right _ (List.mem_append_left _ stale)) rfl
    · have others := (List.nodup_append.mp chained.distinct).2.1
      exact (List.nodup_append.mp (List.nodup_append.mp others).2.1).2.2 _ stale _ cached rfl
  · exact fun same => apart _ chained.bufW_mem _
      (List.mem_append_right _ (List.mem_append_right _ inside)) same.symm
  · exact chained.blank a (List.mem_append_right _ inside)
  · dsimp only at at_next
    subst at_next
    generalize object.glance .consumer = said at consuming
    cases consuming with
    | nexting left drained => exact chained.inuse_ne_nil rfl left
  · dsimp only at at_cell
    subst at_cell
    generalize object.glance .producer = said at producing
    cases producing with
    | testing at_end room =>
      rw [SwsrBuffer.available, at_end]
      exact chained.slots_w.2.end_isNone.mpr room

/-- In every run the parties touch allocated buffers only, a buffer is recycled when no one else
knows it, no allocated buffer is forgotten, and neither `next_r` nor the inner `push` fails. -/
theorem uswsrBuffer_safe (size : Nat) (fixedsize : Bool) (address : Nat) (u : UswsrBuffer α)
    (made : UswsrBuffer.init size fixedsize address = some u)
    (history : List (Event Party (Operation α) (Answer α))) (state : UChannel α)
    (run : History UChannel.Step ⟨u, .idle, .idle⟩ history state) : state.Safe := by
  obtain ⟨positive, related⟩ := UChannel.init_related made
  obtain ⟨object, known, -⟩ := Witnessed.matched related (UChannel.step_matched positive) run
  exact known.safe

/-- Who takes the next step, and what is left open in it. -/
inductive UTurn (α : Type) where
  /-- The producer calls `push`. -/
  | push (data : α)
  /-- The producer goes on. -/
  | produce
  /-- The producer gets a buffer from `malloc`. -/
  | allocate (address : Nat)
  /-- The producer returns. -/
  | pushed
  /-- The consumer calls `pop`. -/
  | pop
  /-- The consumer goes on. -/
  | consume
  /-- The consumer returns. -/
  | popped

/-- The step that is taken at a turn. -/
def UChannel.turn (state : UChannel α) :
    UTurn α → Option (Option (Event Party (Operation α) (Answer α)) × UChannel α)
  | .push data =>
    match state.producer with
    | .idle => some (some (.call .producer (.push data)), { state with producer := .pushing data })
    | _ => none
  | .produce =>
    (state.buffer.produce state.producer).map fun moved =>
      (none, { state with buffer := moved.2, producer := moved.1 })
  | .allocate address =>
    match state.producer with
    | .allocating data =>
      if state.buffer.free address then
        (state.buffer.allocate address).map fun u =>
          (none, { state with buffer := u, producer := .listing data address })
      else none
    | _ => none
  | .pushed =>
    match state.producer with
    | .returning success =>
      some (some (.answer .producer (.pushed success)), { state with producer := .idle })
    | _ => none
  | .pop =>
    match state.consumer with
    | .idle => some (some (.call .consumer .pop), { state with consumer := .popping })
    | _ => none
  | .consume =>
    (state.buffer.consume state.consumer).map fun moved =>
      (none, { state with buffer := moved.2, consumer := moved.1 })
  | .popped =>
    match state.consumer with
    | .returning answer => some (some (.answer .consumer answer), { state with consumer := .idle })
    | _ => none

/-- The state after a list of turns. -/
def UChannel.turns : UChannel α → List (UTurn α) → Option (UChannel α)
  | state, [] => some state
  | state, turn :: rest => do
    let moved ← state.turn turn
    moved.2.turns rest

/-- What is taken at a turn is a step. -/
theorem UChannel.turn_step {state next : UChannel α} {turn : UTurn α}
    {event : Option (Event Party (Operation α) (Answer α))}
    (taken : state.turn turn = some (event, next)) : UChannel.Step state event next := by
  obtain ⟨u, producer, consumer⟩ := state
  cases turn with
  | push data => cases producer <;> cases taken; exact .push data
  | produce =>
    obtain ⟨_, moves, same⟩ := Option.map_eq_some_iff.mp taken
    cases same
    exact .produce moves
  | allocate address =>
    cases producer with
    | allocating data =>
      obtain ⟨free, taken⟩ := Option.ite_none_right_eq_some.mp taken
      obtain ⟨_, moves, same⟩ := Option.map_eq_some_iff.mp taken
      cases same
      exact .allocate free moves
    | _ => cases taken
  | pushed => cases producer <;> cases taken; exact .pushed
  | pop => cases consumer <;> cases taken; exact .pop
  | consume =>
    obtain ⟨_, moves, same⟩ := Option.map_eq_some_iff.mp taken
    cases same
    exact .consume moves
  | popped => cases consumer <;> cases taken; exact .popped

/-- A list of turns that goes through is a run. -/
theorem UChannel.turns_history {first state final : UChannel α} {turns : List (UTurn α)}
    {history : List (Event Party (Operation α) (Answer α))}
    (run : History UChannel.Step first history state)
    (taken : state.turns turns = some final) :
    ∃ history, History UChannel.Step first history final := by
  induction turns generalizing state history with
  | nil =>
    cases taken
    exact ⟨history, run⟩
  | cons turn rest ih =>
    obtain ⟨⟨event, next⟩, moved, later⟩ := Option.bind_eq_some_iff.mp taken
    exact ih (run.step (UChannel.turn_step moved)) later

/-- Three entries are put in and taken out where a buffer has two cells. -/
def recycling : List (UTurn Nat) :=
  let push (data : Nat) : List (UTurn Nat) := .push data :: List.replicate 4 .produce ++ [.pushed]
  let pop : List (UTurn Nat) := .pop :: List.replicate 5 .consume ++ [.popped]
  push 1 ++ push 2 ++ (.push 3 :: List.replicate 2 .produce ++ .allocate 1 ::
    List.replicate 5 .produce ++ [.pushed]) ++ pop ++ pop ++
    (.pop :: List.replicate 11 .consume ++ [.popped])

/-- The buffer of two cells before the first call. -/
def twoCells : UChannel Nat := ⟨(UswsrBuffer.init 2 false 0).get rfl, .idle, .idle⟩

/-- The run goes on to a second buffer and gives the first one back to the cache. -/
theorem recycling_ends : (twoCells.turns recycling).map (fun state =>
    (state.buffer.bufcache, state.buffer.bufR, state.buffer.bufW)) = some ([0], 1, 1) := by
  decide +kernel

/-- A run that goes on to a second buffer and gives the first one back to the cache. -/
theorem uswsrBuffer_safe_recycled : ∃ (history : _) (state : UChannel Nat),
    History UChannel.Step twoCells history state ∧
      (state.buffer.bufcache, state.buffer.bufR, state.buffer.bufW) = ([0], 1, 1) ∧
      state.Safe := by
  obtain ⟨state, taken, ends⟩ := Option.map_eq_some_iff.mp recycling_ends
  obtain ⟨history, run⟩ := UChannel.turns_history .start taken
  exact ⟨history, state, run, ends, uswsrBuffer_safe 2 false 0 _ rfl history state run⟩

end P3arsec.Fastflow
