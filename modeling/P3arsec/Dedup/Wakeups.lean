import P3arsec.Dedup.Originals

/-!
# The condition variables of the queues

A thread that finds a queue full or empty sleeps. A call that has moved chunks wakes one of the
threads that sleep at the other condition variable of the queue, however many chunks it has moved,
and the last producer wakes all threads that sleep at an empty queue. So a thread may go on sleeping
when there are chunks or room for it. But a queue with chunks has a consumer that does not sleep at
it, and where a producer sleeps there are chunks, or another producer is about to put one in
(`Alert`).
-/

namespace P3arsec.Dedup.Pthreads

open P3arsec.Lib P3arsec.Dedup.Pthreads.Pipeline

/-- The condition variables of a queue. -/
inductive Cond where
  /-- `notEmpty`. -/
  | notEmpty (que : Que) (q : Nat)
  /-- `notFull`. -/
  | notFull (que : Que) (q : Nat)
  deriving DecidableEq, Repr

/-- What a step does to a condition variable. -/
inductive Wake where
  /-- Nothing. -/
  | none
  /-- `pthread_cond_signal`. -/
  | signal
  /-- `pthread_cond_broadcast`. -/
  | broadcast
  deriving DecidableEq, Repr

/-- The threads. -/
def Setup.threads (setup : Setup) : List Pipeline.Action :=
  .fragment :: .reorder :: (List.range setup.nthreads).flatMap fun t =>
    [.worker .fragmentRefine t, .worker .deduplicate t, .worker .compress t]

/-- The threads with those that sleep in `pthread_cond_wait`. -/
structure Threads (κ : Type) where
  /-- The threads and what they share. -/
  pipe : Pipeline κ
  /-- Whether a thread sleeps. -/
  asleep : Pipeline.Action → Bool

/-- What happens to a thread. -/
inductive Event where
  /-- It takes a step, with the thread that is woken at a condition variable. -/
  | step (thread : Pipeline.Action) (woken : Cond → Pipeline.Action)
  /-- It goes to sleep in a call of `queue_enqueue` or `queue_dequeue`. -/
  | sleep (thread : Pipeline.Action)
  /-- It wakes up for no reason. -/
  | spurious (thread : Pipeline.Action)

namespace Pipeline

variable {κ : Type} [DecidableEq κ]

/-- A thread is in a call of `queue_enqueue` or `queue_dequeue`. -/
def inCall (setup : Setup) (pipe : Pipeline κ) : Pipeline.Action → Bool
  | .fragment => pipe.fragment.enqueues
  | .worker stage t => t < setup.nthreads && ((pipe.workers stage t).enqueues.isSome ||
      ((pipe.workers stage t).phase == .loop && (pipe.workers stage t).todo.isEmpty &&
        (pipe.workers stage t).recvBuf.isEmpty))
  | .reorder => pipe.reorder.writing.isNone && pipe.reorder.phase == .loop &&
      pipe.reorder.recvBuf.isEmpty

/-- The condition variable that a thread in such a call waits for. -/
def waitsAt (setup : Setup) (pipe : Pipeline κ) : Pipeline.Action → Cond
  | .fragment => .notFull .refine pipe.fragment.qid
  | .worker stage t =>
    match (pipe.workers stage t).enqueues with
    | some port => .notFull (stage.output port) (setup.qid t)
    | none => .notEmpty stage.input (setup.qid t)
  | .reorder => .notEmpty .reorder pipe.reorder.qid

/-- What a step does to a condition variable: `queue_enqueue` and `queue_dequeue` signal if they
have moved a chunk, `queue_terminate` broadcasts if the queue is terminated now. -/
def wake (pipe next : Pipeline κ) : Cond → Wake
  | .notEmpty que q =>
    if (next.queues que q).nTerminated ≠ (pipe.queues que q).nTerminated ∧
      (next.queues que q).isTerminated = true then .broadcast
    else if (pipe.queues que q).buf.length < (next.queues que q).buf.length then .signal
    else .none
  | .notFull que q =>
    if (next.queues que q).buf.length < (pipe.queues que q).buf.length then .signal else .none

variable {setup : Setup} {input : Input κ} {pipe next : Pipeline κ} {thread other : Pipeline.Action}

/-- A step of a thread in the middle changes no other thread. -/
theorem WorkerStep.frame {stage : Stage} {t : Nat}
    (moves : WorkerStep setup input stage t pipe next) :
    next.fragment = pipe.fragment ∧ next.reorder = pipe.reorder ∧ ∀ stage' t',
      ¬(stage' = stage ∧ t' = t) → next.workers stage' t' = pipe.workers stage' t' := by
  cases moves with
  | enqueue port busy room => exact ⟨rfl, rfl, fun _ _ other => if_neg other⟩
  | insert port chunk todo idle phase more => exact ⟨rfl, rfl, fun _ _ other => if_neg other⟩
  | process chunk recvBuf idle phase done received =>
    obtain ⟨-, workers, fragment, reorder⟩ := Inv.process_same input pipe stage chunk
    refine ⟨fragment, reorder, fun stage' t' other => ?_⟩
    rw [workers_setWorker, if_neg other, workers]
  | dequeue idle phase done received some => exact ⟨rfl, rfl, fun _ _ other => if_neg other⟩
  | leave idle phase done received ended => exact ⟨rfl, rfl, fun _ _ other => if_neg other⟩
  | flush port idle phase rest => exact ⟨rfl, rfl, fun _ _ other => if_neg other⟩
  | terminate idle phase flushed => exact ⟨rfl, rfl, fun _ _ other => if_neg other⟩

omit [DecidableEq κ] in
/-- A step of `Fragment` changes no other thread. -/
theorem FragmentStep.frame (moves : FragmentStep setup pipe next) :
    next.workers = pipe.workers ∧ next.reorder = pipe.reorder := by
  cases moves with
  | enqueue busy room => exact ⟨rfl, rfl⟩
  | insert chunk todo idle more => exact ⟨rfl, rfl⟩
  | flush idle done rest => exact ⟨rfl, rfl⟩
  | terminate idle done flushed more => exact ⟨rfl, rfl⟩

omit [DecidableEq κ] in
/-- A step of `Reorder` changes no other thread. -/
theorem ReorderStep.frame (moves : ReorderStep setup input pipe next) :
    next.workers = pipe.workers ∧ next.fragment = pipe.fragment := by
  cases moves with
  | write chunk busy ready => exact ⟨rfl, rfl⟩
  | receive chunk recvBuf idle phase got => exact ⟨rfl, rfl⟩
  | skip idle phase got ended => exact ⟨rfl, rfl⟩
  | dequeue idle phase got some => exact ⟨rfl, rfl⟩
  | take chunk tree idle phase left => exact ⟨rfl, rfl⟩
  | finish idle phase => exact ⟨rfl, rfl⟩

omit [DecidableEq κ] in
/-- The call of `Fragment` is known from its own variables. -/
theorem call_fragment (same : next.fragment = pipe.fragment) :
    inCall setup next .fragment = inCall setup pipe .fragment ∧
      waitsAt setup next .fragment = waitsAt setup pipe .fragment := by
  simp only [inCall, waitsAt, same, and_self]

omit [DecidableEq κ] in
/-- The call of a thread in the middle is known from its own variables. -/
theorem call_worker {stage : Stage} {t : Nat}
    (same : next.workers stage t = pipe.workers stage t) :
    inCall setup next (.worker stage t) = inCall setup pipe (.worker stage t) ∧
      waitsAt setup next (.worker stage t) = waitsAt setup pipe (.worker stage t) := by
  simp only [inCall, waitsAt, same, and_self]

omit [DecidableEq κ] in
/-- The call of `Reorder` is known from its own variables. -/
theorem call_reorder (same : next.reorder = pipe.reorder) :
    inCall setup next .reorder = inCall setup pipe .reorder ∧
      waitsAt setup next .reorder = waitsAt setup pipe .reorder := by
  simp only [inCall, waitsAt, same, and_self]

/-- The kinds of steps of a thread. -/
theorem act_cases (acts : act setup input pipe thread = some next) :
    (thread = .fragment ∧ FragmentStep setup pipe next) ∨
    (∃ stage t, thread = .worker stage t ∧ t < setup.nthreads ∧
      WorkerStep setup input stage t pipe next) ∨
    (thread = .reorder ∧ ReorderStep setup input pipe next) := by
  cases thread with
  | fragment =>
    rcases stepFragment_cases setup pipe with ⟨other, same, step⟩ | ⟨none, -⟩
    · obtain rfl := Option.some.inj (acts.symm.trans same)
      exact .inl ⟨rfl, step⟩
    · exact absurd (acts.symm.trans none) (by simp)
  | worker stage t =>
    obtain ⟨inside, step⟩ := workerStep_of_step acts
    exact .inr (.inl ⟨stage, t, rfl, inside, step⟩)
  | reorder =>
    rcases stepReorder_cases setup input pipe with ⟨other, same, step⟩ | ⟨none, -⟩
    · obtain rfl := Option.some.inj (acts.symm.trans same)
      exact .inr (.inr ⟨rfl, step⟩)
    · exact absurd (acts.symm.trans none) (by simp)

/-- A step of a thread leaves another one in its call. -/
theorem act_frame (acts : act setup input pipe thread = some next) (apart : other ≠ thread) :
    inCall setup next other = inCall setup pipe other ∧
      waitsAt setup next other = waitsAt setup pipe other := by
  rcases act_cases acts with ⟨rfl, moves⟩ | ⟨stage, t, rfl, -, moves⟩ | ⟨rfl, moves⟩
  · obtain ⟨workers, reorder⟩ := moves.frame
    cases other with
    | fragment => exact absurd rfl apart
    | worker stage t => exact call_worker (congrFun (congrFun workers stage) t)
    | reorder => exact call_reorder reorder
  · obtain ⟨fragment, reorder, workers⟩ := moves.frame
    cases other with
    | fragment => exact call_fragment fragment
    | worker stage' t' =>
      refine call_worker (workers stage' t' fun same => apart ?_)
      rw [same.1, same.2]
    | reorder => exact call_reorder reorder
  · obtain ⟨workers, fragment⟩ := moves.frame
    cases other with
    | fragment => exact call_fragment fragment
    | worker stage t => exact call_worker (congrFun (congrFun workers stage) t)
    | reorder => exact absurd rfl apart

/-- A send buffer with which a thread is in a call of `queue_enqueue` is not empty. -/
structure Loaded (pipe : Pipeline κ) : Prop where
  /-- The one of `Fragment`. -/
  fragment : pipe.fragment.enqueues = true → pipe.fragment.sendBuf ≠ []
  /-- The ones of the threads in the middle. -/
  worker : ∀ stage t port, (pipe.workers stage t).enqueues = some port →
    (pipe.workers stage t).sendBuf port ≠ []

omit [DecidableEq κ] in
/-- A thread in the middle that changes keeps its send buffers so. -/
theorem Loaded.setWorker {stage : Stage} {t : Nat} {worker : Worker} (loaded : Loaded pipe)
    (fragment : next.fragment = pipe.fragment)
    (workers : next.workers = (pipe.setWorker stage t worker).workers)
    (own : ∀ port, worker.enqueues = some port → worker.sendBuf port ≠ []) : Loaded next where
  fragment := fragment ▸ loaded.fragment
  worker stage' t' port := by
    rw [workers, workers_setWorker]
    split
    · exact own port
    · exact loaded.worker stage' t' port

/-- A step keeps the send buffers so. -/
theorem Loaded.step (loaded : Loaded pipe) (acts : act setup input pipe thread = some next) :
    Loaded next := by
  rcases act_cases acts with ⟨-, moves⟩ | ⟨stage, t, -, -, moves⟩ | ⟨-, moves⟩
  · cases moves with
    | enqueue busy room => exact ⟨fun busy => (nomatch busy), loaded.worker⟩
    | insert chunk todo idle more => exact ⟨fun _ => by simp, loaded.worker⟩
    | flush idle done rest => exact ⟨fun _ => rest, loaded.worker⟩
    | terminate idle done flushed more =>
      exact ⟨fun busy => absurd (idle.symm.trans busy) (by simp), loaded.worker⟩
  · cases moves with
    | enqueue port busy room => exact loaded.setWorker rfl rfl fun _ busy => nomatch busy
    | insert port chunk todo idle phase more =>
      refine loaded.setWorker rfl rfl fun port' busy => ?_
      dsimp only at busy ⊢
      split at busy
      · obtain rfl := Option.some.inj busy
        simp
      · cases busy
    | process chunk recvBuf idle phase done received =>
      obtain ⟨-, workers, fragment, -⟩ := Inv.process_same input pipe stage chunk
      let worker : Worker := { pipe.workers stage t with
        recvBuf := recvBuf, todo := (pipe.process input stage chunk).1 }
      have same : ((pipe.process input stage chunk).2.setWorker stage t worker).workers =
          (pipe.setWorker stage t worker).workers := by
        funext stage' t'
        rw [workers_setWorker, workers_setWorker, workers]
      exact loaded.setWorker fragment same fun port busy => loaded.worker stage t port busy
    | dequeue idle phase done received some =>
      exact loaded.setWorker rfl rfl fun port busy => loaded.worker stage t port busy
    | leave idle phase done received ended =>
      exact loaded.setWorker rfl rfl fun port busy => loaded.worker stage t port busy
    | flush port idle phase rest =>
      refine loaded.setWorker rfl rfl fun port' busy => ?_
      obtain rfl := Option.some.inj busy
      exact rest
    | terminate idle phase flushed =>
      exact loaded.setWorker rfl rfl fun port busy => loaded.worker stage t port busy
  · obtain ⟨workers, fragment⟩ := moves.frame
    exact ⟨fragment ▸ loaded.fragment, workers ▸ loaded.worker⟩

/-- The send buffers are so in every reachable state. -/
theorem Reached.loaded (reached : Reached setup input pipe) : Loaded pipe := by
  apply Reachable.invariant ?_ ?_ reached
  · rintro _ rfl
    exact ⟨fun busy => (nomatch busy), fun _ _ _ busy => nomatch busy⟩
  · rintro pipe next loaded ⟨thread, acts⟩
    exact loaded.step acts

/-- A call of `queue_enqueue` that returns has put chunks into the queue. -/
theorem enqueue_ne_nil (queue : Queue Sequence) {size limit : Nat} {sendBuf : List Sequence}
    (room : queue.isFull size = false) (positive : 0 < limit) (loaded : sendBuf ≠ []) :
    (queue.enqueue size limit sendBuf).2.buf ≠ [] := by
  have free : queue.buf.length < size := by simpa [Queue.isFull] using room
  have some : 0 < sendBuf.length := List.length_pos_iff.mpr loaded
  have moved : 0 < queue.moved size limit sendBuf := by
    unfold Queue.moved
    omega
  intro empty
  have length := congrArg List.length empty
  simp only [Queue.enqueue, List.length_append, List.length_take, List.length_nil] at length
  omega

/-- A thread that steps out of a call of `queue_enqueue` leaves chunks in the queue. -/
theorem act_enqueues (loaded : Loaded pipe) (acts : act setup input pipe thread = some next)
    (calls : inCall setup pipe thread = true) {que : Que} {q : Nat}
    (here : waitsAt setup pipe thread = .notFull que q) : (next.queues que q).buf ≠ [] := by
  rcases act_cases acts with ⟨rfl, moves⟩ | ⟨stage, t, rfl, -, moves⟩ | ⟨rfl, moves⟩
  · have busy : pipe.fragment.enqueues = true := calls
    obtain ⟨rfl, rfl⟩ := Cond.notFull.inj here
    cases moves with
    | enqueue _ room =>
      have filled := enqueue_ne_nil (pipe.queues .refine pipe.fragment.qid) room
        setup.anchorDataPerInsert_pos (loaded.fragment busy)
      simpa using filled
    | insert chunk todo idle more => exact absurd (idle.symm.trans busy) (by simp)
    | flush idle done rest => exact absurd (idle.symm.trans busy) (by simp)
    | terminate idle done flushed more => exact absurd (idle.symm.trans busy) (by simp)
  · cases busy : (pipe.workers stage t).enqueues with
    | none =>
      simp only [waitsAt, busy] at here
      cases here
    | some port =>
      simp only [waitsAt, busy] at here
      obtain ⟨rfl, rfl⟩ := Cond.notFull.inj here
      have limit : 0 < setup.insert stage := by
        cases stage with
        | fragmentRefine => exact setup.chunkAnchorPerInsert_pos
        | deduplicate => exact setup.itemPerInsert_pos
        | compress => exact setup.itemPerInsert_pos
      cases moves with
      | enqueue port' busy' room =>
        obtain rfl := Option.some.inj (busy.symm.trans busy')
        have filled := enqueue_ne_nil (pipe.queues (stage.output port) (setup.qid t)) room limit
          (loaded.worker stage t port busy)
        simpa using filled
      | insert port chunk todo idle phase more => exact absurd (idle.symm.trans busy) (by simp)
      | process chunk recvBuf idle phase done received =>
        exact absurd (idle.symm.trans busy) (by simp)
      | dequeue idle phase done received some => exact absurd (idle.symm.trans busy) (by simp)
      | leave idle phase done received ended => exact absurd (idle.symm.trans busy) (by simp)
      | flush port idle phase rest => exact absurd (idle.symm.trans busy) (by simp)
      | terminate idle phase flushed => exact absurd (idle.symm.trans busy) (by simp)
  · cases here

end Pipeline

namespace Threads

variable {κ : Type} [DecidableEq κ] (setup : Setup) (input : Input κ)

/-- The threads at the start. -/
def start : Threads κ := ⟨Pipeline.start setup input, fun _ => false⟩

/-- A signal wakes a thread that sleeps at the condition variable, if there is one. -/
def Legal (s : Threads κ) (next : Pipeline κ) (woken : Cond → Pipeline.Action) : Prop :=
  ∀ thread ∈ setup.threads, s.asleep thread = true →
    wake s.pipe next (waitsAt setup s.pipe thread) = .signal →
      s.asleep (woken (waitsAt setup s.pipe thread)) = true ∧
        waitsAt setup s.pipe (woken (waitsAt setup s.pipe thread)) = waitsAt setup s.pipe thread

instance (s : Threads κ) (next : Pipeline κ) (woken : Cond → Pipeline.Action) :
    Decidable (Legal setup s next woken) :=
  inferInstanceAs (Decidable (∀ _ ∈ _, _ → _))

/-- The threads that sleep after a step. -/
def sleepers (s : Threads κ) (next : Pipeline κ) (woken : Cond → Pipeline.Action)
    (thread : Pipeline.Action) : Bool :=
  s.asleep thread &&
    match wake s.pipe next (waitsAt setup s.pipe thread) with
    | .none => true
    | .signal => thread ≠ woken (waitsAt setup s.pipe thread)
    | .broadcast => false

/-- What comes of an event. Only the compression of a chunk, for which `Reorder` alone waits, wakes
it by a broadcast for that chunk, so that it goes on when its test holds. -/
def turn (s : Threads κ) : Event → Option (Threads κ)
  | .step thread woken =>
    if s.asleep thread then none
    else (act setup input s.pipe thread).bind fun next =>
      if Legal setup s next woken then some ⟨next, sleepers setup s next woken⟩ else none
  | .sleep thread =>
    if s.asleep thread || !inCall setup s.pipe thread ||
      (act setup input s.pipe thread).isSome then none
    else some { s with asleep := Function.update s.asleep thread true }
  | .spurious thread =>
    if s.asleep thread then some { s with asleep := Function.update s.asleep thread false }
    else none

/-- The states of all interleavings. -/
def Reached : Threads κ → Prop :=
  Reachable (· = start setup input) fun s next => ∃ event, turn setup input s event = some next

/-- A thread takes a step or goes to sleep. -/
def Moves (s : Threads κ) : Prop :=
  ∃ thread, (∃ woken next, turn setup input s (.step thread woken) = some next) ∨
    ∃ next, turn setup input s (.sleep thread) = some next

variable {setup input} {s next : Threads κ} {thread other : Pipeline.Action}

/-- The kinds of events. -/
inductive Turn (setup : Setup) (input : Input κ) (s : Threads κ) : Threads κ → Prop where
  /-- A step of a thread that is awake. -/
  | step (thread : Pipeline.Action) (woken : Cond → Pipeline.Action) (pipe : Pipeline κ)
      (awake : s.asleep thread = false) (acts : act setup input s.pipe thread = some pipe)
      (legal : Legal setup s pipe woken) :
      Turn setup input s ⟨pipe, sleepers setup s pipe woken⟩
  /-- A thread that has to wait goes to sleep. -/
  | sleep (thread : Pipeline.Action) (calls : inCall setup s.pipe thread = true)
      (waits : act setup input s.pipe thread = none) :
      Turn setup input s { s with asleep := Function.update s.asleep thread true }
  /-- A thread wakes up. -/
  | spurious (thread : Pipeline.Action) :
      Turn setup input s { s with asleep := Function.update s.asleep thread false }

/-- What comes of an event is one of these. -/
theorem turn_cases {event : Event} (moves : turn setup input s event = some next) :
    Turn setup input s next := by
  cases event with
  | step thread woken =>
    simp only [turn] at moves
    cases awake : s.asleep thread with
    | true => simp [awake] at moves
    | false =>
      simp only [awake, Bool.false_eq_true, if_false] at moves
      obtain ⟨pipe, acts, rest⟩ := Option.bind_eq_some_iff.mp moves
      split at rest
      · rename_i legal
        obtain rfl := Option.some.inj rest
        exact .step thread woken pipe awake acts legal
      · cases rest
  | sleep thread =>
    simp only [turn] at moves
    split at moves
    · cases moves
    · rename_i test
      obtain rfl := Option.some.inj moves
      simp only [Bool.or_eq_true, not_or, Bool.not_eq_true', Bool.not_eq_false,
        Bool.not_eq_true, Option.isSome_eq_false_iff, Option.isNone_iff_eq_none] at test
      exact .sleep thread test.1.2 test.2
  | spurious thread =>
    simp only [turn] at moves
    split at moves
    · obtain rfl := Option.some.inj moves
      exact .spurious thread
    · cases moves

/-- A run of the threads is a run of the pipeline. -/
theorem reached_pipe (reached : Reached setup input s) : Pipeline.Reached setup input s.pipe := by
  induction reached with
  | start begins =>
    subst begins
    exact .start rfl
  | step _ moves ih =>
    obtain ⟨event, moves⟩ := moves
    cases turn_cases moves with
    | step thread woken pipe awake acts legal => exact ih.step ⟨thread, acts⟩
    | sleep thread calls waits => exact ih
    | spurious thread => exact ih

/-- A thread takes chunks from a queue. -/
def Takes (setup : Setup) (que : Que) (q : Nat) : Pipeline.Action → Prop
  | .fragment => False
  | .worker stage t => stage.input = que ∧ setup.qid t = q ∧ t < setup.nthreads
  | .reorder => que = .reorder

omit [DecidableEq κ] in
/-- A thread that waits for chunks in a queue takes chunks from it. -/
theorem takes_of_cond {pipe : Pipeline κ} (calls : inCall setup pipe thread = true) {que : Que}
    {q : Nat} (here : waitsAt setup pipe thread = .notEmpty que q) : Takes setup que q thread := by
  cases thread with
  | fragment => cases here
  | worker stage t =>
    simp only [inCall, Bool.and_eq_true, decide_eq_true_eq] at calls
    cases busy : (pipe.workers stage t).enqueues with
    | some port =>
      simp only [waitsAt, busy] at here
      cases here
    | none =>
      simp only [waitsAt, busy] at here
      obtain ⟨same, same'⟩ := Cond.notEmpty.inj here
      exact ⟨same, same', calls.1⟩
  | reorder =>
    obtain ⟨same, -⟩ := Cond.notEmpty.inj here
    exact same.symm

omit [DecidableEq κ] in
/-- A thread in a call is one of the threads. -/
theorem mem_threads {pipe : Pipeline κ} (calls : inCall setup pipe thread = true) :
    thread ∈ setup.threads := by
  cases thread with
  | fragment => exact List.mem_cons_self
  | worker stage t =>
    simp only [inCall, Bool.and_eq_true, decide_eq_true_eq] at calls
    refine List.mem_cons_of_mem _ (List.mem_cons_of_mem _ (List.mem_flatMap.mpr
      ⟨t, List.mem_range.mpr calls.1, ?_⟩))
    cases stage <;> simp
  | reorder => exact List.mem_cons_of_mem _ List.mem_cons_self

/-- Every queue has a consumer. -/
theorem exists_takes (setup : Setup) (que : Que) {q : Nat} (inside : q < setup.nqueues) :
    ∃ thread, Takes setup que q thread := by
  obtain ⟨t, below, same⟩ := setup.manned q inside
  cases que with
  | refine => exact ⟨.worker .fragmentRefine t, rfl, same, below⟩
  | deduplicate => exact ⟨.worker .deduplicate t, rfl, same, below⟩
  | compress => exact ⟨.worker .compress t, rfl, same, below⟩
  | reorder => exact ⟨.reorder, rfl⟩

/-- What is known of the threads that sleep. -/
structure Alert (setup : Setup) (s : Threads κ) : Prop where
  /-- They are in a call. -/
  calls : ∀ thread, s.asleep thread = true → inCall setup s.pipe thread = true
  /-- None sleeps at a terminated queue. -/
  ended : ∀ thread que q, s.asleep thread = true → waitsAt setup s.pipe thread = .notEmpty que q →
    (s.pipe.queues que q).isTerminated = false
  /-- A queue with chunks has a consumer that does not sleep at it. -/
  consumer : ∀ que, ∀ q < setup.nqueues, (s.pipe.queues que q).buf ≠ [] →
    ∃ thread, Takes setup que q thread ∧
      ¬(s.asleep thread = true ∧ waitsAt setup s.pipe thread = .notEmpty que q)
  /-- Where a producer sleeps there are chunks, or another one is about to put some in. -/
  producer : ∀ thread que q, s.asleep thread = true → waitsAt setup s.pipe thread = .notFull que q →
    (s.pipe.queues que q).buf ≠ [] ∨ ∃ other, s.asleep other = false ∧
      inCall setup s.pipe other = true ∧ waitsAt setup s.pipe other = .notFull que q

omit [DecidableEq κ] in
/-- A thread that sleeps after a step has slept before. -/
theorem sleepers_asleep {pipe : Pipeline κ} {woken : Cond → Pipeline.Action}
    (asleep : sleepers setup s pipe woken thread = true) : s.asleep thread = true := by
  unfold sleepers at asleep
  exact (Bool.and_eq_true _ _ ▸ asleep).1

omit [DecidableEq κ] in
/-- A signal wakes a thread that sleeps at the condition variable. -/
theorem Alert.woken (alert : Alert setup s) {pipe : Pipeline κ} {woken : Cond → Pipeline.Action}
    (legal : Legal setup s pipe woken) (asleep : s.asleep thread = true)
    (signal : wake s.pipe pipe (waitsAt setup s.pipe thread) = .signal) :
    ∃ other, s.asleep other = true ∧ waitsAt setup s.pipe other = waitsAt setup s.pipe thread ∧
      sleepers setup s pipe woken other = false := by
  obtain ⟨slept, same⟩ := legal thread (mem_threads (alert.calls thread asleep)) asleep signal
  refine ⟨_, slept, same, ?_⟩
  unfold sleepers
  rw [same, signal]
  simp

omit [DecidableEq κ] in
/-- After a broadcast nobody sleeps. -/
theorem sleepers_broadcast {pipe : Pipeline κ} {woken : Cond → Pipeline.Action}
    (broadcast : wake s.pipe pipe (waitsAt setup s.pipe thread) = .broadcast) :
    sleepers setup s pipe woken thread = false := by
  unfold sleepers
  rw [broadcast, Bool.and_false]

/-- A step keeps what is known. -/
theorem Alert.step (alert : Alert setup s) (reached : Pipeline.Reached setup input s.pipe)
    {pipe : Pipeline κ} {woken : Cond → Pipeline.Action} (awake : s.asleep thread = false)
    (acts : act setup input s.pipe thread = some pipe) (legal : Legal setup s pipe woken) :
    Alert setup ⟨pipe, sleepers setup s pipe woken⟩ := by
  have reached' : Pipeline.Reached setup input pipe := reached.step ⟨thread, acts⟩
  -- a thread that sleeps is another one, and its call is the same
  have frame : ∀ {other}, s.asleep other = true → other ≠ thread ∧
      inCall setup pipe other = inCall setup s.pipe other ∧
      waitsAt setup pipe other = waitsAt setup s.pipe other := by
    intro other asleep
    have apart : other ≠ thread := by
      rintro rfl
      rw [awake] at asleep
      cases asleep
    exact ⟨apart, act_frame acts apart⟩
  refine ⟨fun other asleep => ?_, fun other que q asleep here => ?_,
    fun que q inside filled => ?_, fun other que q asleep here => ?_⟩
  · have slept := sleepers_asleep asleep
    rw [(frame slept).2.1]
    exact alert.calls other slept
  · have slept := sleepers_asleep asleep
    have before : waitsAt setup s.pipe other = .notEmpty que q := (frame slept).2.2 ▸ here
    have runs := alert.ended other que q slept before
    by_contra terminated
    have terminated : (pipe.queues que q).isTerminated = true := by simpa using terminated
    have broadcast : wake s.pipe pipe (waitsAt setup s.pipe other) = .broadcast := by
      rw [before, wake, if_pos]
      refine ⟨fun same => ?_, terminated⟩
      rw [Queue.isTerminated_iff, same, reached'.inv.producers,
        ← reached.inv.producers que q, ← Queue.isTerminated_iff, runs] at terminated
      cases terminated
    exact absurd (sleepers_broadcast broadcast) (by simpa using asleep)
  · by_cases empty : (s.pipe.queues que q).buf = []
    · obtain ⟨other, takes⟩ := exists_takes setup que inside
      by_cases sleeps : sleepers setup s pipe woken other = true ∧
          waitsAt setup pipe other = .notEmpty que q
      · have slept := sleepers_asleep sleeps.1
        have before : waitsAt setup s.pipe other = .notEmpty que q := (frame slept).2.2 ▸ sleeps.2
        -- the queue has got its first chunks
        have signal : wake s.pipe pipe (waitsAt setup s.pipe other) = .signal := by
          have grown : (s.pipe.queues que q).buf.length < (pipe.queues que q).buf.length := by
            rw [empty]
            exact List.length_pos_iff.mpr filled
          have single : ¬wake s.pipe pipe (waitsAt setup s.pipe other) = .broadcast :=
            fun broadcast => absurd (sleepers_broadcast broadcast) (by simpa using sleeps.1)
          rw [before, wake] at single ⊢
          split at single
          · exact absurd rfl single
          · rename_i quiet
            rw [if_neg quiet, if_pos grown]
        obtain ⟨first, slept', same, up⟩ := alert.woken legal slept signal
        refine ⟨first, takes_of_cond (alert.calls first slept') (same.trans before), fun both => ?_⟩
        exact absurd (up.symm.trans both.1) (by simp)
      · exact ⟨other, takes, sleeps⟩
    · obtain ⟨other, takes, free⟩ := alert.consumer que q inside empty
      refine ⟨other, takes, fun both => free ?_⟩
      have slept := sleepers_asleep both.1
      exact ⟨slept, (frame slept).2.2 ▸ both.2⟩
  · have slept := sleepers_asleep asleep
    have before : waitsAt setup s.pipe other = .notFull que q := (frame slept).2.2 ▸ here
    by_cases filled : (pipe.queues que q).buf = []
    · refine .inr ?_
      rcases alert.producer other que q slept before with some | ⟨first, up, calls, same⟩
      · -- the queue has given its last chunks
        have signal : wake s.pipe pipe (waitsAt setup s.pipe other) = .signal := by
          rw [before, wake, if_pos]
          rw [filled]
          exact List.length_pos_iff.mpr some
        obtain ⟨first, slept', same, up⟩ := alert.woken legal slept signal
        obtain ⟨-, call, place⟩ := frame slept'
        exact ⟨first, up, call.trans (alert.calls first slept'), place.trans (same.trans before)⟩
      · by_cases acting : first = thread
        · subst acting
          exact absurd filled (act_enqueues reached.loaded acts calls same)
        · obtain ⟨call, place⟩ := act_frame acts acting
          refine ⟨first, ?_, call.trans calls, place.trans same⟩
          show sleepers setup s pipe woken first = false
          rw [sleepers, up, Bool.false_and]
    · exact .inl filled

/-- A thread that has to wait has found its queue full, or empty and not terminated. -/
theorem waits_queue {pipe : Pipeline κ} (calls : inCall setup pipe thread = true)
    (waits : act setup input pipe thread = none) :
    (∃ que q, waitsAt setup pipe thread = .notFull que q ∧ (pipe.queues que q).buf ≠ []) ∨
    ∃ que q, waitsAt setup pipe thread = .notEmpty que q ∧ (pipe.queues que q).buf = [] ∧
      (pipe.queues que q).isTerminated = false := by
  have some_of_full : ∀ {que q}, (pipe.queues que q).isFull setup.queueSize = true →
      (pipe.queues que q).buf ≠ [] := by
    intro que q full empty
    have room := setup.queueSize_pos
    simp only [Queue.isFull, empty, List.length_nil, decide_eq_true_eq] at full
    omega
  cases thread with
  | fragment =>
    have busy : pipe.fragment.enqueues = true := calls
    rcases stepFragment_cases setup pipe with ⟨next, moves, -⟩ | ⟨-, ⟨-, full⟩ | ⟨idle, -⟩⟩
    · exact absurd (waits.symm.trans moves) (by simp)
    · exact .inl ⟨_, _, rfl, some_of_full full⟩
    · exact absurd (idle.symm.trans busy) (by simp)
  | worker stage t =>
    simp only [inCall, Bool.and_eq_true, decide_eq_true_eq] at calls
    rcases stepWorker_cases input pipe stage calls.1 with ⟨next, moves, -⟩ | ⟨-, stops⟩
    · exact absurd (waits.symm.trans moves) (by simp)
    · cases stops with
      | full port busy full =>
        exact .inl ⟨stage.output port, setup.qid t, by simp only [waitsAt, busy],
          some_of_full full⟩
      | empty idle phase done received empty runs =>
        exact .inr ⟨stage.input, setup.qid t, by simp only [waitsAt, idle],
          List.isEmpty_iff.mp empty, runs⟩
      | finished idle phase => simp [idle, phase] at calls
  | reorder =>
    simp only [inCall, Bool.and_eq_true, Option.isNone_iff_eq_none, beq_iff_eq] at calls
    rcases stepReorder_cases setup input pipe with ⟨next, moves, -⟩ | ⟨-, stops⟩
    · exact absurd (waits.symm.trans moves) (by simp)
    · cases stops with
      | uncompressed chunk busy waits => exact absurd (calls.1.1.symm.trans busy) (by simp)
      | empty idle phase got empty runs =>
        exact .inr ⟨_, _, rfl, List.isEmpty_iff.mp empty, runs⟩
      | finished phase => exact absurd (calls.1.2.symm.trans phase) (by simp)

/-- A thread that goes to sleep keeps what is known. -/
theorem Alert.sleep (alert : Alert setup s) (calls : inCall setup s.pipe thread = true)
    (waits : act setup input s.pipe thread = none) :
    Alert setup { s with asleep := Function.update s.asleep thread true } := by
  have found := waits_queue calls waits
  refine ⟨fun other asleep => ?_, fun other que q asleep here => ?_,
    fun que q inside filled => ?_, fun other que q asleep here => ?_⟩
  · by_cases same : other = thread
    · exact same ▸ calls
    · exact alert.calls other (by simpa [same] using asleep)
  · by_cases same : other = thread
    · subst same
      rcases found with ⟨_, _, full, -⟩ | ⟨que', q', empty, -, runs⟩
      · exact absurd (full.symm.trans here) (by simp)
      · obtain ⟨rfl, rfl⟩ := Cond.notEmpty.inj (empty.symm.trans here)
        exact runs
    · exact alert.ended other que q (by simpa [same] using asleep) here
  · obtain ⟨other, takes, free⟩ := alert.consumer que q inside filled
    refine ⟨other, takes, fun both => ?_⟩
    by_cases same : other = thread
    · subst same
      rcases found with ⟨_, _, full, -⟩ | ⟨que', q', empty, nothing, -⟩
      · exact absurd (full.symm.trans both.2) (by simp)
      · obtain ⟨rfl, rfl⟩ := Cond.notEmpty.inj (empty.symm.trans both.2)
        exact filled nothing
    · exact free ⟨by simpa [same] using both.1, both.2⟩
  · -- where the thread itself waits for room there are chunks
    have own : waitsAt setup s.pipe thread = .notFull que q → (s.pipe.queues que q).buf ≠ [] := by
      intro mine
      rcases found with ⟨que', q', full, some⟩ | ⟨_, _, empty, -⟩
      · obtain ⟨rfl, rfl⟩ := Cond.notFull.inj (full.symm.trans mine)
        exact some
      · exact absurd (empty.symm.trans mine) (by simp)
    by_cases same : other = thread
    · exact .inl (own (same ▸ here))
    · rcases alert.producer other que q (by simpa [same] using asleep) here with
        some | ⟨first, up, call, place⟩
      · exact .inl some
      · by_cases mine : first = thread
        · exact .inl (own (mine ▸ place))
        · exact .inr ⟨first, by simpa [mine] using up, call, place⟩

omit [DecidableEq κ] in
/-- A thread that wakes up for no reason keeps what is known. -/
theorem Alert.spurious (alert : Alert setup s) (thread : Pipeline.Action) :
    Alert setup { s with asleep := Function.update s.asleep thread false } := by
  have slept : ∀ {other}, Function.update s.asleep thread false other = true →
      s.asleep other = true := by
    intro other asleep
    by_cases same : other = thread
    · simp [same] at asleep
    · simpa [same] using asleep
  refine ⟨fun other asleep => alert.calls other (slept asleep),
    fun other que q asleep here => alert.ended other que q (slept asleep) here,
    fun que q inside filled => ?_, fun other que q asleep here => ?_⟩
  · obtain ⟨other, takes, free⟩ := alert.consumer que q inside filled
    exact ⟨other, takes, fun both => free ⟨slept both.1, both.2⟩⟩
  · refine (alert.producer other que q (slept asleep) here).imp_right ?_
    rintro ⟨first, up, call, place⟩
    refine ⟨first, ?_, call, place⟩
    by_cases same : first = thread
    · simp [same]
    · simpa [same] using up

/-- It is known in every reachable state. -/
theorem Reached.alert (reached : Reached setup input s) : Alert setup s := by
  have both : Pipeline.Reached setup input s.pipe ∧ Alert setup s := by
    induction reached with
    | start begins =>
      subst begins
      exact ⟨.start rfl, fun _ asleep => (nomatch asleep), fun _ _ _ asleep => (nomatch asleep),
        fun _ _ _ filled => absurd rfl filled, fun _ _ _ asleep => nomatch asleep⟩
    | step _ moves ih =>
      obtain ⟨event, moves⟩ := moves
      obtain ⟨reached, alert⟩ := ih
      cases turn_cases moves with
      | step thread woken pipe awake acts legal =>
        exact ⟨reached.step ⟨thread, acts⟩, alert.step reached awake acts legal⟩
      | sleep thread calls waits => exact ⟨reached, alert.sleep calls waits⟩
      | spurious thread => exact ⟨reached, alert.spurious thread⟩
  exact both.2

end Threads

end P3arsec.Dedup.Pthreads
