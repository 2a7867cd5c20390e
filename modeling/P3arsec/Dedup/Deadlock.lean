import P3arsec.Dedup.Wakeups

/-!
# The waits of the pipeline

`Reorder` does not take chunks from the reorder queues while it waits for the compression of a
chunk, or for chunks of one of these queues. A thread that waits for room in a reorder queue then
holds up the threads that put chunks into the queues before it and those that wait for chunks from
them (`Held`), and if the chunk that `Reorder` waits for is to come from such a thread (`Cycle`), it
never comes: the pipeline can come to a state in which nobody has a step (`deadlock`). It does not
as long as there is no such cycle (`deadlock_free`), although one signal for several chunks may
leave threads asleep that could go on.
-/

namespace P3arsec.Dedup.Pthreads

open P3arsec.Lib P3arsec.Dedup.Pthreads.Pipeline

namespace Threads

variable {κ : Type} {setup : Setup} {input : Input κ} {s : Threads κ}
  {thread other : Pipeline.Action} {que : Que} {q t : Nat} {stage : Stage}

/-- A thread may still put chunks into a queue, or terminate it. -/
def Feeds (setup : Setup) (pipe : Pipeline κ) (que : Que) (q : Nat) : Pipeline.Action → Prop
  | .fragment => que = .refine ∧ pipe.fragment.terminated ≤ q
  | .worker stage t => t < setup.nthreads ∧ setup.qid t = q ∧ (∃ port, stage.output port = que) ∧
      (pipe.workers stage t).phase ≠ .finished
  | .reorder => False

/-- A thread is held up by threads that wait for room in a reorder queue. -/
inductive Held (setup : Setup) (s : Threads κ) : Pipeline.Action → Prop where
  /-- It waits for room in a reorder queue itself. -/
  | room (thread : Pipeline.Action) (q : Nat) (asleep : s.asleep thread = true)
      (here : waitsAt setup s.pipe thread = .notFull .reorder q) : Held setup s thread
  /-- It waits for room in a queue whose consumers are held up unless they sleep at the queue. -/
  | full (thread first : Pipeline.Action) (que : Que) (q : Nat) (asleep : s.asleep thread = true)
      (here : waitsAt setup s.pipe thread = .notFull que q)
      (takes : Takes setup que q first) (held : Held setup s first)
      (consumers : ∀ other, Takes setup que q other →
        ¬(s.asleep other = true ∧ waitsAt setup s.pipe other = .notEmpty que q) →
          Held setup s other) : Held setup s thread
  /-- It waits for chunks in a queue whose producers are held up. -/
  | empty (thread first : Pipeline.Action) (que : Que) (q : Nat) (asleep : s.asleep thread = true)
      (here : waitsAt setup s.pipe thread = .notEmpty que q)
      (feeds : Feeds setup s.pipe que q first) (held : Held setup s first)
      (producers : ∀ other, Feeds setup s.pipe que q other → Held setup s other) :
      Held setup s thread

/-- A thread has a chunk that is to be compressed, or takes it from its queue. -/
def Carries (setup : Setup) (pipe : Pipeline κ) (chunk : Sequence) : Pipeline.Action → Prop
  | .worker stage t => t < setup.nthreads ∧
      ((∃ port, stage.output port = .compress ∧ ((port, chunk) ∈ (pipe.workers stage t).todo ∨
        chunk ∈ (pipe.workers stage t).sendBuf port)) ∨
      stage.input = .compress ∧ (chunk ∈ (pipe.workers stage t).recvBuf ∨
        chunk ∈ (pipe.queues .compress (setup.qid t)).buf))
  | _ => False

/-- `Reorder` waits for chunks that threads hold up which wait for room in a reorder queue. -/
inductive Cycle (setup : Setup) (s : Threads κ) : Prop where
  /-- For the compression of a chunk. -/
  | compression (chunk : Sequence) (first : Pipeline.Action)
      (busy : s.pipe.reorder.writing = some chunk)
      (waits : s.pipe.compressed (s.pipe.original chunk) = false)
      (carries : Carries setup s.pipe (s.pipe.original chunk) first)
      (held : ∀ thread, Carries setup s.pipe (s.pipe.original chunk) thread → Held setup s thread)
  /-- For chunks in a reorder queue. -/
  | empty (held : Held setup s .reorder)

/-- Some thread waits for room in a reorder queue. -/
theorem Held.waits (held : Held setup s thread) :
    ∃ other q, s.asleep other = true ∧ waitsAt setup s.pipe other = .notFull .reorder q := by
  induction held with
  | room thread q asleep here => exact ⟨thread, q, asleep, here⟩
  | full thread first que q asleep here takes held consumers ih => exact ih
  | empty thread first que q asleep here feeds held producers ih => exact ih

/-- A cycle goes through a thread that waits for room in a reorder queue. -/
theorem Cycle.waits (cycle : Cycle setup s) :
    ∃ other q, s.asleep other = true ∧ waitsAt setup s.pipe other = .notFull .reorder q := by
  cases cycle with
  | compression chunk first busy waits carries held => exact (held first carries).waits
  | empty held => exact held.waits

/-- A queue that is not terminated has a producer that has not finished. -/
theorem exists_feeds {pipe : Pipeline κ} (inv : Inv setup pipe) (inside : q < setup.nqueues)
    (runs : (pipe.queues que q).isTerminated = false) :
    ∃ thread, Feeds setup pipe que q thread := by
  have lane : ∀ stage : Stage, (pipe.queues (stage.output .main) q).isTerminated = false →
      ∃ thread, Feeds setup pipe (stage.output .main) q thread := by
    intro stage runs
    by_contra none
    have all : finishedOn setup pipe stage q =
        (Finset.range setup.nthreads).filter fun t => setup.qid t = q := by
      refine Finset.filter_congr fun t member => ?_
      refine ⟨fun both => both.1, fun here => ⟨here, ?_⟩⟩
      by_contra busy
      exact none ⟨.worker stage t, Finset.mem_range.mp member, here, ⟨.main, rfl⟩, busy⟩
    have terminated : (pipe.queues (stage.output .main) q).isTerminated = true := by
      rw [Queue.isTerminated_iff, inv.byWorkers stage q inside, inv.producers,
        Inv.nProducers_output, setup.counted q inside, all]
    rw [runs] at terminated
    cases terminated
  cases que with
  | refine =>
    refine ⟨.fragment, rfl, ?_⟩
    by_contra later
    have count := inv.byFragment q inside
    rw [if_pos (Nat.lt_of_not_le later)] at count
    have terminated : (pipe.queues .refine q).isTerminated = true := by
      rw [Queue.isTerminated_iff, count, inv.producers]
      rfl
    rw [runs] at terminated
    cases terminated
  | deduplicate => exact lane .fragmentRefine runs
  | compress => exact lane .deduplicate runs
  | reorder => exact lane .compress runs

section Progress

variable [DecidableEq κ]

/-- Every thread sleeps, or it has no step and is in no call. -/
def Still (setup : Setup) (input : Input κ) (s : Threads κ) : Prop :=
  ∀ thread, s.asleep thread = true ∨
    act setup input s.pipe thread = none ∧ inCall setup s.pipe thread = false

/-- Where no thread moves they are all still. -/
theorem still_of_not_moves (stuck : ¬Moves setup input s) : Still setup input s := by
  intro thread
  cases asleep : s.asleep thread with
  | true => exact .inl rfl
  | false =>
    refine .inr ?_
    cases acts : act setup input s.pipe thread with
    | some next =>
      -- one of the threads that sleep at each condition variable may be woken
      let woken : Cond → Pipeline.Action := fun place =>
        (setup.threads.find? fun other =>
          s.asleep other && decide (waitsAt setup s.pipe other = place)).getD thread
      have legal : Legal setup s next woken := by
        intro other member slept _
        have found : (setup.threads.find? fun first => s.asleep first &&
            decide (waitsAt setup s.pipe first = waitsAt setup s.pipe other)).isSome = true :=
          List.find?_isSome.mpr ⟨other, member, by simp [slept]⟩
        obtain ⟨first, same⟩ := Option.isSome_iff_exists.mp found
        have holds := List.find?_some same
        simp only [Bool.and_eq_true, decide_eq_true_eq] at holds
        simp only [woken, same, Option.getD_some]
        exact holds
      refine absurd ⟨thread, .inl ⟨woken, ⟨next, sleepers setup s next woken⟩, ?_⟩⟩ stuck
      simp only [turn, asleep, Bool.false_eq_true, if_false, acts, Option.bind_some, if_pos legal]
    | none =>
      refine ⟨rfl, ?_⟩
      by_contra calls
      refine absurd ⟨thread, .inr
        ⟨{ s with asleep := Function.update s.asleep thread true }, ?_⟩⟩ stuck
      simp only [turn, asleep, acts]
      simp [calls]

/-- What is known where all threads are still. -/
structure Rest (setup : Setup) (input : Input κ) (s : Threads κ) : Prop where
  /-- They are still. -/
  still : Still setup input s
  /-- The threads that sleep. -/
  alert : Alert setup s
  /-- The ends of the queues. -/
  inv : Inv setup s.pipe

namespace Rest

/-- A thread in the middle sleeps or has finished. -/
theorem worker (rest : Rest setup input s) (inside : t < setup.nthreads)
    (busy : (s.pipe.workers stage t).phase ≠ .finished) : s.asleep (.worker stage t) = true := by
  refine (rest.still (.worker stage t)).resolve_right ?_
  rintro ⟨none, idle⟩
  rcases stepWorker_cases input s.pipe stage inside with ⟨next, moves, -⟩ | ⟨-, stops⟩
  · exact absurd (none.symm.trans moves) (by simp)
  · cases stops with
    | full port calls full => simp [inCall, inside, calls] at idle
    | empty calls phase done received empty runs =>
      simp [inCall, inside, phase, done, received] at idle
    | finished calls phase => exact busy phase

/-- A thread that feeds a queue of the middle sleeps. -/
theorem feeds (rest : Rest setup input s) (inside : q < setup.nqueues)
    (feeds : Feeds setup s.pipe que q thread) : s.asleep thread = true := by
  cases thread with
  | fragment =>
    refine (rest.still .fragment).resolve_right ?_
    rintro ⟨none, idle⟩
    rcases stepFragment_cases setup s.pipe with ⟨next, moves, -⟩ | ⟨-, ⟨busy, -⟩ | done⟩
    · exact absurd (none.symm.trans moves) (by simp)
    · exact absurd (idle.symm.trans busy) (by simp)
    · have last := feeds.2
      omega
  | worker stage t => exact rest.worker feeds.1 feeds.2.2.2
  | reorder => exact feeds.elim

/-- Where a producer sleeps there are chunks. -/
theorem filled (rest : Rest setup input s) (asleep : s.asleep thread = true)
    (here : waitsAt setup s.pipe thread = .notFull que q) : (s.pipe.queues que q).buf ≠ [] := by
  refine (rest.alert.producer thread que q asleep here).resolve_right ?_
  rintro ⟨other, awake, calls, -⟩
  rcases rest.still other with slept | ⟨-, idle⟩
  · exact absurd (awake.symm.trans slept) (by simp)
  · exact absurd (calls.symm.trans idle) (by simp)

/-- A thread that waits for room is held up, when the consumers that wait for room are. -/
theorem full (rest : Rest setup input s) (asleep : s.asleep thread = true)
    (here : waitsAt setup s.pipe thread = .notFull que q) (inside : q < setup.nqueues)
    (inner : que ≠ .reorder)
    (consumers : ∀ stage t port, stage.input = que → s.asleep (.worker stage t) = true →
      (s.pipe.workers stage t).enqueues = some port → Held setup s (.worker stage t)) :
    Held setup s thread := by
  have some := rest.filled asleep here
  have each : ∀ other, Takes setup que q other →
      ¬(s.asleep other = true ∧ waitsAt setup s.pipe other = .notEmpty que q) →
        Held setup s other := by
    intro other takes free
    cases other with
    | fragment => exact takes.elim
    | worker stage t =>
      obtain ⟨rfl, rfl, below⟩ := takes
      have busy : (s.pipe.workers stage t).phase ≠ .finished := by
        intro finished
        exact some (rest.inv.left stage t below (by rw [finished]; simp)).1.2
      have slept := rest.worker below busy
      cases calls : (s.pipe.workers stage t).enqueues with
      | some port => exact consumers stage t port rfl slept calls
      | none => exact absurd ⟨slept, by simp only [waitsAt, calls]⟩ free
    | reorder => exact absurd takes inner
  obtain ⟨first, takes, free⟩ := rest.alert.consumer que q inside some
  exact .full thread first que q asleep here takes (each first takes free) each

/-- A thread that waits for chunks is held up when the producers are. -/
theorem empty (rest : Rest setup input s) (asleep : s.asleep thread = true)
    (here : waitsAt setup s.pipe thread = .notEmpty que q) (inside : q < setup.nqueues)
    (producers : ∀ other, Feeds setup s.pipe que q other → Held setup s other) :
    Held setup s thread := by
  have runs := rest.alert.ended thread que q asleep here
  obtain ⟨first, feeds⟩ := exists_feeds rest.inv inside runs
  exact .empty thread first que q asleep here feeds (producers first feeds) producers

/-- A thread in the middle that has not finished is held up, when it is in the calls of
`queue_enqueue` and the producers of its input are. -/
theorem held_worker (rest : Rest setup input s) (inside : t < setup.nthreads)
    (busy : (s.pipe.workers stage t).phase ≠ .finished)
    (full : ∀ t port, s.asleep (.worker stage t) = true →
      (s.pipe.workers stage t).enqueues = some port → Held setup s (.worker stage t))
    (producers : ∀ other, Feeds setup s.pipe stage.input (setup.qid t) other →
      Held setup s other) : Held setup s (.worker stage t) := by
  have slept := rest.worker inside busy
  cases calls : (s.pipe.workers stage t).enqueues with
  | some port => exact full t port slept calls
  | none =>
    have here : waitsAt setup s.pipe (.worker stage t) = .notEmpty stage.input (setup.qid t) := by
      simp only [waitsAt, calls]
    exact rest.empty slept here (setup.known t inside) producers

/-- Every thread that feeds a queue is held up. -/
theorem held (rest : Rest setup input s) (inside : q < setup.nqueues)
    (feeds : Feeds setup s.pipe que q thread) : Held setup s thread := by
  have known : ∀ {stage t}, s.asleep (.worker stage t) = true → t < setup.nthreads := by
    intro stage t asleep
    have calls := rest.alert.calls _ asleep
    simp only [inCall, Bool.and_eq_true, decide_eq_true_eq] at calls
    exact calls.1
  have place : ∀ {stage t port}, (s.pipe.workers stage t).enqueues = some port →
      waitsAt setup s.pipe (.worker stage t) = .notFull (stage.output port) (setup.qid t) := by
    intro stage t port calls
    simp only [waitsAt, calls]
  -- the threads that wait for room, from the end of the pipeline to its begin
  have fullCompress : ∀ t port, s.asleep (.worker .compress t) = true →
      (s.pipe.workers .compress t).enqueues = some port → Held setup s (.worker .compress t) :=
    fun t port asleep calls => .room _ _ asleep (place calls)
  have fullDeduplicate : ∀ t port, s.asleep (.worker .deduplicate t) = true →
      (s.pipe.workers .deduplicate t).enqueues = some port →
        Held setup s (.worker .deduplicate t) := by
    intro t port asleep calls
    cases port with
    | main =>
      refine rest.full asleep (place calls) (setup.known t (known asleep)) (by simp [Stage.output])
        fun stage t' port' input asleep' calls' => ?_
      obtain rfl : stage = .compress := by cases stage <;> first | rfl | cases input
      exact fullCompress t' port' asleep' calls'
    | bypass => exact .room _ _ asleep (place calls)
  have fullRefine : ∀ t port, s.asleep (.worker .fragmentRefine t) = true →
      (s.pipe.workers .fragmentRefine t).enqueues = some port →
        Held setup s (.worker .fragmentRefine t) := by
    intro t port asleep calls
    refine rest.full asleep (place calls) (setup.known t (known asleep)) (by simp [Stage.output])
      fun stage t' port' input asleep' calls' => ?_
    obtain rfl : stage = .deduplicate := by cases stage <;> first | rfl | cases input
    exact fullDeduplicate t' port' asleep' calls'
  have fragment : s.asleep .fragment = true → Held setup s .fragment := by
    intro asleep
    refine rest.full asleep rfl rest.inv.fragmentQid (by simp)
      fun stage t' port' input asleep' calls' => ?_
    obtain rfl : stage = .fragmentRefine := by cases stage <;> first | rfl | cases input
    exact fullRefine t' port' asleep' calls'
  -- all threads, from the begin to the end
  have allRefine : ∀ t < setup.nthreads, (s.pipe.workers .fragmentRefine t).phase ≠ .finished →
      Held setup s (.worker .fragmentRefine t) := by
    intro t below busy
    refine rest.held_worker below busy fullRefine fun other feeds => ?_
    cases other with
    | fragment => exact fragment (rest.feeds (setup.known t below) feeds)
    | worker stage t' =>
      obtain ⟨-, -, ⟨port, output⟩, -⟩ := feeds
      cases stage <;> cases port <;> cases output
    | reorder => exact feeds.elim
  have allDeduplicate : ∀ t < setup.nthreads, (s.pipe.workers .deduplicate t).phase ≠ .finished →
      Held setup s (.worker .deduplicate t) := by
    intro t below busy
    refine rest.held_worker below busy fullDeduplicate fun other feeds => ?_
    cases other with
    | fragment => exact absurd feeds.1 (by simp [Stage.input])
    | worker stage t' =>
      obtain ⟨below', -, ⟨port, output⟩, busy'⟩ := feeds
      cases stage with
      | fragmentRefine => exact allRefine t' below' busy'
      | deduplicate => cases port <;> cases output
      | compress => cases port <;> cases output
    | reorder => exact feeds.elim
  have allCompress : ∀ t < setup.nthreads, (s.pipe.workers .compress t).phase ≠ .finished →
      Held setup s (.worker .compress t) := by
    intro t below busy
    refine rest.held_worker below busy fullCompress fun other feeds => ?_
    cases other with
    | fragment => exact absurd feeds.1 (by simp [Stage.input])
    | worker stage t' =>
      obtain ⟨below', -, ⟨port, output⟩, busy'⟩ := feeds
      cases stage with
      | fragmentRefine => cases port <;> cases output
      | deduplicate => exact allDeduplicate t' below' busy'
      | compress => cases port <;> cases output
    | reorder => exact feeds.elim
  cases thread with
  | fragment => exact fragment (rest.feeds inside feeds)
  | worker stage t =>
    obtain ⟨below, -, -, busy⟩ := feeds
    cases stage with
    | fragmentRefine => exact allRefine t below busy
    | deduplicate => exact allDeduplicate t below busy
    | compress => exact allCompress t below busy
  | reorder => exact feeds.elim

/-- Where `Reorder` has finished nobody is held up. -/
theorem not_held (rest : Rest setup input s) (finished : s.pipe.reorder.phase = .finished) :
    ¬Held setup s thread := by
  intro held
  obtain ⟨other, q, asleep, here⟩ := held.waits
  have calls := rest.alert.calls other asleep
  cases other with
  | fragment => cases here
  | worker stage t =>
    simp only [inCall, Bool.and_eq_true, decide_eq_true_eq] at calls
    cases busy : (s.pipe.workers stage t).enqueues with
    | none =>
      simp only [waitsAt, busy] at here
      cases here
    | some port =>
      have place := here
      simp only [waitsAt, busy] at place
      obtain ⟨-, rfl⟩ := Cond.notFull.inj place
      have ended := rest.inv.reorderLeft (by rw [finished]; simp) _ (setup.known t calls.1)
      exact rest.filled asleep here ended.2
  | reorder => cases here

/-- Where `Reorder` has finished all threads have. -/
theorem finished (rest : Rest setup input s) (finished : s.pipe.reorder.phase = .finished) :
    Finished setup s.pipe := by
  have feeders : ∀ {que q thread}, q < setup.nqueues → ¬Feeds setup s.pipe que q thread :=
    fun inside feeds => rest.not_held finished (rest.held inside feeds)
  refine ⟨?_, fun stage t inside => ?_, finished⟩
  · have last := setup.nqueues_pos
    have all : setup.nqueues ≤ s.pipe.fragment.terminated := by
      by_contra more
      have feeds : Feeds setup s.pipe .refine (setup.nqueues - 1) .fragment := ⟨rfl, by omega⟩
      exact feeders (by omega) feeds
    obtain ⟨todo, sendBuf, idle⟩ := rest.inv.fragmentDone (by omega)
    have bound := rest.inv.fragmentBound
    exact ⟨todo, sendBuf, idle, by omega⟩
  · by_contra busy
    have feeds : Feeds setup s.pipe (stage.output .main) (setup.qid t) (.worker stage t) :=
      ⟨inside, rfl, ⟨.main, rfl⟩, busy⟩
    exact feeders (setup.known t inside) feeds

/-- A thread that has a chunk on its way to the compression is held up. -/
theorem carries (rest : Rest setup input s) {chunk : Sequence}
    (carries : Carries setup s.pipe chunk thread) : Held setup s thread := by
  cases thread with
  | fragment => exact carries.elim
  | worker stage t =>
    obtain ⟨inside, here⟩ := carries
    have busy : (s.pipe.workers stage t).phase ≠ .finished := by
      intro finished
      have left := rest.inv.left stage t inside (by rw [finished]; simp)
      have idle := rest.inv.idle stage t inside finished
      rcases here with ⟨port, -, todo | sendBuf⟩ | ⟨input, recvBuf | queue⟩
      · simp [left.2.2] at todo
      · simp [idle.2 port] at sendBuf
      · simp [left.2.1] at recvBuf
      · have ended := left.1.2
        rw [input] at ended
        simp [ended] at queue
    have feeds : Feeds setup s.pipe (stage.output .main) (setup.qid t) (.worker stage t) :=
      ⟨inside, rfl, ⟨.main, rfl⟩, busy⟩
    exact rest.held (setup.known t inside) feeds
  | reorder => exact carries.elim

end Rest

omit [DecidableEq κ] in
/-- A chunk on its way to the compression is carried by a thread. -/
theorem exists_carries {pipe : Pipeline κ} {chunk : Sequence}
    (awaits : Awaits setup pipe chunk) : ∃ thread, Carries setup pipe chunk thread := by
  cases awaits with
  | todo stage t port inside before here =>
    exact ⟨.worker stage t, inside, .inl ⟨port, before, .inl here⟩⟩
  | sendBuf stage t port inside before here =>
    exact ⟨.worker stage t, inside, .inl ⟨port, before, .inr here⟩⟩
  | queue q inside here =>
    obtain ⟨t, below, rfl⟩ := setup.manned q inside
    exact ⟨.worker .compress t, below, .inr ⟨rfl, .inr here⟩⟩
  | recvBuf stage t inside before here =>
    exact ⟨.worker stage t, inside, .inr ⟨before, .inl here⟩⟩

/-- In every reachable state without a cycle a thread moves, or all have finished. -/
theorem moves_or_finished (reached : Reached setup input s) (free : ¬Cycle setup s) :
    Finished setup s.pipe ∨ Moves setup input s := by
  by_cases moves : Moves setup input s
  · exact .inr moves
  have reached' := reached_pipe reached
  have rest : Rest setup input s := ⟨still_of_not_moves moves, reached.alert, reached'.inv⟩
  rcases rest.still .reorder with asleep | ⟨none, idle⟩
  · -- it sleeps at an empty queue
    exact absurd (.empty (rest.empty asleep rfl rest.inv.reorderQid
      fun other feeds => rest.held rest.inv.reorderQid feeds)) free
  · rcases stepReorder_cases setup input s.pipe with ⟨next, step, -⟩ | ⟨-, stops⟩
    · exact absurd (none.symm.trans step) (by simp)
    · cases stops with
      | uncompressed chunk busy waits =>
        have traced := reached'.traced
        rcases traced.placed _ _ (traced.known chunk (.writing busy)) with done | awaits
        · exact absurd (waits.symm.trans done) (by simp)
        · obtain ⟨first, carries⟩ := exists_carries awaits
          exact absurd (.compression chunk first busy waits carries
            fun thread carries => rest.carries carries) free
      | empty calls phase got empty runs => simp [inCall, calls, phase, got] at idle
      | finished phase => exact .inl (rest.finished phase)

/-- The states of all runs without a cycle. -/
def ReachedFree (setup : Setup) (input : Input κ) : Threads κ → Prop :=
  Reachable (fun s => s = start setup input ∧ ¬Cycle setup s) fun s next =>
    (∃ event, turn setup input s event = some next) ∧ ¬Cycle setup next

/-- No run without a cycle comes to a state in which a thread has not finished and no thread
moves. -/
theorem deadlock_free (reached : ReachedFree setup input s) :
    Finished setup s.pipe ∨ Moves setup input s := by
  have both : Reached setup input s ∧ ¬Cycle setup s := by
    induction reached with
    | start begins => exact ⟨.start begins.1, begins.2⟩
    | step _ moves ih => exact ⟨ih.1.step moves.1, moves.2⟩
  exact moves_or_finished both.1 both.2

omit [DecidableEq κ] in
/-- There is no cycle at the start. -/
theorem free_start (setup : Setup) (input : Input κ) : ¬Cycle setup (start setup input) := by
  intro cycle
  obtain ⟨other, q, asleep, -⟩ := cycle.waits
  cases asleep

/-- What comes of events in an order. -/
def turns (setup : Setup) (input : Input κ) (s : Threads κ) : List Event → Option (Threads κ)
  | [] => some s
  | event :: events => (turn setup input s event).bind fun next => turns setup input next events

/-- Events in an order lead to a reachable state. -/
theorem Reached.turns (reached : Reached setup input s) {events : List Event} {next : Threads κ}
    (run : turns setup input s events = some next) : Reached setup input next := by
  induction events generalizing s with
  | nil =>
    obtain rfl := Option.some.inj run
    exact reached
  | cons event events ih =>
    unfold Threads.turns at run
    obtain ⟨middle, moves, rest⟩ := Option.bind_eq_some_iff.mp run
    exact ih (reached.step ⟨event, moves⟩) rest

/-- No thread waits for room in a reorder queue, or `Reorder` does not wait. -/
def calm (setup : Setup) (s : Threads κ) : Bool :=
  (!s.asleep .reorder && match s.pipe.reorder.writing with
    | some chunk => s.pipe.compressed (s.pipe.original chunk)
    | none => true) ||
  !setup.threads.any fun thread => s.asleep thread &&
    match waitsAt setup s.pipe thread with
    | .notFull .reorder _ => true
    | _ => false

omit [DecidableEq κ] in
/-- There is no cycle then. -/
theorem free_of_calm (alert : Alert setup s) (test : calm setup s = true) : ¬Cycle setup s := by
  intro cycle
  obtain ⟨other, q, asleep, here⟩ := cycle.waits
  have member := mem_threads (alert.calls other asleep)
  have jammed : (setup.threads.any fun thread => s.asleep thread &&
      match waitsAt setup s.pipe thread with
      | .notFull .reorder _ => true
      | _ => false) = true := by
    refine List.any_eq_true.mpr ⟨other, member, ?_⟩
    rw [asleep, here]
    rfl
  simp only [calm, jammed, Bool.not_true, Bool.or_false, Bool.and_eq_true,
    Bool.not_eq_true'] at test
  cases cycle with
  | compression chunk first busy waits carries held =>
    have ready := test.2
    rw [busy] at ready
    exact absurd (waits.symm.trans ready) (by simp)
  | empty held =>
    have slept : s.asleep .reorder = true := by
      cases held with
      | room _ q asleep here => exact asleep
      | full _ first que q asleep here takes held consumers => exact asleep
      | empty _ first que q asleep here feeds held producers => exact asleep
    exact absurd (test.1.symm.trans slept) (by simp)

/-- What comes of events in an order, as long as the states are calm. -/
def calmTurns (setup : Setup) (input : Input κ) (s : Threads κ) :
    List Event → Option (Threads κ)
  | [] => some s
  | event :: events => (turn setup input s event).bind fun next =>
      if calm setup next then calmTurns setup input next events else none

/-- A run of calm states is one without a cycle. -/
theorem ReachedFree.turns (reached : ReachedFree setup input s) (reached' : Reached setup input s)
    {events : List Event} {next : Threads κ} (run : calmTurns setup input s events = some next) :
    ReachedFree setup input next := by
  induction events generalizing s with
  | nil =>
    obtain rfl := Option.some.inj run
    exact reached
  | cons event events ih =>
    unfold calmTurns at run
    obtain ⟨middle, moves, rest⟩ := Option.bind_eq_some_iff.mp run
    split at rest
    · rename_i test
      have later : Reached setup input middle := reached'.step ⟨event, moves⟩
      exact ih (reached.step ⟨⟨event, moves⟩, free_of_calm later.alert test⟩) later rest
    · cases rest

end Progress

/-- Two threads a stage, queues and buffers for one chunk. -/
def pairs : Setup := .encode 2 1 1 Nat.two_pos Nat.one_pos Nat.one_pos

/-- A step that wakes nobody. -/
def alone (thread : Pipeline.Action) : Event := .step thread fun _ => thread

/-- A step that wakes a thread. -/
def waking (thread other : Pipeline.Action) : Event := .step thread fun _ => other

/-- Three fine chunks, of which the first two are equal. -/
def triple : Input Nat := ⟨[3], fun chunk => chunk.l2num / 2⟩

/-- A run in which a thread of `Compress` comes to wait for room in the reorder queue. -/
def tripleRun : List Event :=
  [(1, .sleep (.worker .compress 0)), (4, alone .fragment), (1, .sleep (.worker .compress 1)),
    (1, .sleep (.worker .deduplicate 1)), (1, .sleep .reorder),
    (3, alone (.worker .fragmentRefine 1)),
    (1, waking (.worker .fragmentRefine 1) (.worker .deduplicate 1)),
    (2, alone (.worker .fragmentRefine 0)), (2, alone (.worker .deduplicate 1)),
    (3, alone (.worker .fragmentRefine 1)), (3, alone (.worker .deduplicate 0)),
    (1, alone (.worker .deduplicate 1)),
    (1, waking (.worker .deduplicate 1) (.worker .compress 0)),
    (2, alone (.worker .compress 0)), (3, alone (.worker .fragmentRefine 1)),
    -- the duplicate comes to `Reorder` first
    (1, waking (.worker .deduplicate 0) .reorder), (2, alone .reorder),
    (2, alone (.worker .compress 0)), (3, alone (.worker .deduplicate 0)),
    (2, alone (.worker .deduplicate 1)),
    (1, waking (.worker .deduplicate 0) (.worker .compress 1)),
    (3, alone (.worker .compress 0)), (1, alone (.worker .deduplicate 0)),
    (1, .sleep (.worker .compress 0))].flatMap fun entry => List.replicate entry.1 entry.2

/-- A calm run that leaves a worker asleep. -/
theorem triple_run : ∃ s ∈ calmTurns pairs triple (start pairs triple) tripleRun,
    s.asleep (.worker .compress 0) = true := by
  decide +kernel

/-- The pipeline goes on where a thread waits for room in the reorder queue. -/
theorem deadlock_free_sample :
    ∃ s ∈ calmTurns pairs triple (start pairs triple) tripleRun,
      s.asleep (.worker .compress 0) = true ∧ (Finished pairs s.pipe ∨ Moves pairs triple s) := by
  obtain ⟨s, run, asleep⟩ := triple_run
  have start : ReachedFree pairs triple (start pairs triple) :=
    .start ⟨rfl, free_start pairs triple⟩
  exact ⟨s, run, asleep, deadlock_free (start.turns (.start rfl) run)⟩

/-- Six fine chunks, of which the first two are equal. -/
def raced : Input Nat := ⟨[6], fun chunk => chunk.l2num - 1⟩

/-- A run in which the second chunk becomes the original of the first one. Its thread then waits
for room in the compress queue, while `Reorder` waits for its compression. -/
def racedRun : List Event :=
  [(4, alone .fragment), (4, alone (.worker .fragmentRefine 0)),
    (1, alone (.worker .deduplicate 0)), (2, alone (.worker .fragmentRefine 0)),
    -- the thread that has the second chunk is faster
    (2, alone (.worker .deduplicate 1)), (3, alone (.worker .deduplicate 0)), (2, alone .reorder),
    (2, alone (.worker .fragmentRefine 0)), (4, alone (.worker .deduplicate 0)),
    (4, alone (.worker .compress 0)), (2, alone (.worker .fragmentRefine 0)),
    (4, alone (.worker .deduplicate 0)), (3, alone (.worker .compress 0)),
    (2, alone (.worker .fragmentRefine 0)), (4, alone (.worker .deduplicate 0)),
    (3, alone (.worker .compress 1)), (2, alone (.worker .fragmentRefine 0)),
    (4, alone (.worker .deduplicate 0)), (1, alone (.worker .deduplicate 1)),
    (2, alone (.worker .fragmentRefine 0)), (2, alone (.worker .fragmentRefine 1)),
    (2, alone (.worker .deduplicate 0)), (1, .sleep (.worker .compress 0)),
    (1, .sleep (.worker .compress 1)), (1, .sleep (.worker .deduplicate 1))].flatMap
      fun entry => List.replicate entry.1 entry.2

/-- A run that leaves every thread asleep or waiting. -/
theorem raced_run : ∃ s ∈ turns pairs raced (start pairs raced) racedRun,
    s.pipe.reorder.phase = .loop ∧ ∀ thread ∈ pairs.threads, s.asleep thread = true ∨
      (act pairs raced s.pipe thread).isNone = true ∧ inCall pairs s.pipe thread = false := by
  decide +kernel

/-- The pipeline comes to a state in which threads have not finished and none moves. -/
theorem deadlock : ∃ s, Reached pairs raced s ∧ ¬Finished pairs s.pipe ∧ ¬Moves pairs raced s := by
  obtain ⟨s, run, writes, still⟩ := raced_run
  have reached : Reached pairs raced s := Reached.turns (.start rfl) run
  refine ⟨s, reached, fun finished => ?_, ?_⟩
  · rw [finished.2.2] at writes
    cases writes
  · rintro ⟨thread, moves⟩
    have rests : s.asleep thread = true ∨
        act pairs raced s.pipe thread = none ∧ inCall pairs s.pipe thread = false := by
      by_cases member : thread ∈ pairs.threads
      · exact (still thread member).imp_right fun none =>
          ⟨Option.isNone_iff_eq_none.mp none.1, none.2⟩
      · cases thread with
        | fragment => exact absurd (by decide) member
        | worker stage t =>
          have outside : pairs.nthreads ≤ t := by
            by_contra inside
            have below : t < 2 := Nat.lt_of_not_le inside
            refine member ?_
            interval_cases t <;> cases stage <;> decide
          refine .inr ⟨by simp only [act, stepWorker, if_pos outside], ?_⟩
          simp [inCall, Nat.not_lt.mpr outside]
        | reorder => exact absurd (by decide) member
    rcases rests with asleep | ⟨none, idle⟩
    · rcases moves with ⟨woken, next, moves⟩ | ⟨next, moves⟩ <;> simp [turn, asleep] at moves
    · rcases moves with ⟨woken, next, moves⟩ | ⟨next, moves⟩ <;>
        simp [turn, none, idle] at moves

end Threads

end P3arsec.Dedup.Pthreads
