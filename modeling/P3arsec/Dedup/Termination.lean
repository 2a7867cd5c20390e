import P3arsec.Dedup.Pthreads

/-!
# The termination of the queues

A queue is terminated when as many producers have terminated as it counts. `Deduplicate` puts
duplicates into the reorder queues without being counted there, so that these queues stay open for
it for another reason: a thread of `Compress` leaves its loop only when its compress queue is
terminated, which is when all threads of `Deduplicate` of the lane have flushed their buffers
(`Inv.runs_bypass`). So no chunk is put into a terminated queue, and what has been put into a
queue has been taken out when its consumers stop.
-/

namespace P3arsec.Dedup.Pthreads.Pipeline

open P3arsec.Lib

variable {κ : Type} {setup : Setup} {pipe : Pipeline κ}

section Updates

variable (pipe) (stage stage' : Stage) (que que' : Que) (t t' q q' : Nat) (worker : Worker)
  (queue : Queue Sequence)

/-- One worker changes. -/
@[simp] theorem workers_setWorker : (pipe.setWorker stage t worker).workers stage' t' =
    if stage' = stage ∧ t' = t then worker else pipe.workers stage' t' := rfl

/-- A queue's change keeps the workers. -/
@[simp] theorem workers_setQueue : (pipe.setQueue que q queue).workers = pipe.workers := rfl

/-- One queue changes. -/
@[simp] theorem queues_setQueue : (pipe.setQueue que q queue).queues que' q' =
    if que' = que ∧ q' = q then queue else pipe.queues que' q' := rfl

/-- A worker's change keeps the queues. -/
@[simp] theorem queues_setWorker : (pipe.setWorker stage t worker).queues = pipe.queues := rfl

/-- A worker's change keeps `Fragment`. -/
@[simp] theorem fragment_setWorker :
    (pipe.setWorker stage t worker).fragment = pipe.fragment := rfl

/-- A queue's change keeps `Fragment`. -/
@[simp] theorem fragment_setQueue : (pipe.setQueue que q queue).fragment = pipe.fragment := rfl

/-- A worker's change keeps `Reorder`. -/
@[simp] theorem reorder_setWorker : (pipe.setWorker stage t worker).reorder = pipe.reorder := rfl

/-- A queue's change keeps `Reorder`. -/
@[simp] theorem reorder_setQueue : (pipe.setQueue que q queue).reorder = pipe.reorder := rfl

end Updates

/-- The threads of a stage that have finished on a queue. -/
def finishedOn (setup : Setup) (pipe : Pipeline κ) (stage : Stage) (q : Nat) : Finset Nat :=
  (Finset.range setup.nthreads).filter fun t =>
    setup.qid t = q ∧ (pipe.workers stage t).phase = .finished

/-- What every step keeps. -/
structure Inv (setup : Setup) (pipe : Pipeline κ) : Prop where
  /-- The number of producers of a queue does not change. -/
  producers : ∀ que q, (pipe.queues que q).nProducers = setup.nProducers que q
  /-- What was put into a queue was taken out or is in it. -/
  recorded : ∀ que q, (pipe.queues que q).Recorded
  /-- `Fragment` terminates the refine queues one after the other. -/
  byFragment : ∀ q < setup.nqueues, (pipe.queues .refine q).nTerminated =
    if q < pipe.fragment.terminated then 1 else 0
  /-- A finished thread has terminated its output queue. -/
  byWorkers : ∀ stage, ∀ q < setup.nqueues,
    (pipe.queues (stage.output .main) q).nTerminated = (finishedOn setup pipe stage q).card
  /-- A thread has left its loop when its input has ended and it has nothing left of it. -/
  left : ∀ stage, ∀ t < setup.nthreads, (pipe.workers stage t).phase ≠ .loop →
    (pipe.queues stage.input (setup.qid t)).Ended ∧ (pipe.workers stage t).recvBuf = [] ∧
      (pipe.workers stage t).todo = []
  /-- A finished thread has flushed its buffers. -/
  idle : ∀ stage, ∀ t < setup.nthreads, (pipe.workers stage t).phase = .finished →
    (pipe.workers stage t).enqueues = none ∧ ∀ port, (pipe.workers stage t).sendBuf port = []
  /-- `Fragment` terminates queues when it has flushed its buffer. -/
  fragmentDone : 0 < pipe.fragment.terminated → pipe.fragment.todo = [] ∧
    pipe.fragment.sendBuf = [] ∧ pipe.fragment.enqueues = false
  /-- `Fragment` terminates each queue once. -/
  fragmentBound : pipe.fragment.terminated ≤ setup.nqueues
  /-- `Fragment` works on a queue. -/
  fragmentQid : pipe.fragment.qid < setup.nqueues
  /-- `Reorder` works on a queue. -/
  reorderQid : pipe.reorder.qid < setup.nqueues
  /-- The queues that `Reorder` has found terminated and empty in turn. -/
  tried : pipe.reorder.phase = .loop → pipe.reorder.tried < setup.nqueues ∧
    ∃ first, pipe.reorder.qid = (first + pipe.reorder.tried) % setup.nqueues ∧
      ∀ i < pipe.reorder.tried, (pipe.queues .reorder ((first + i) % setup.nqueues)).Ended
  /-- `Reorder` leaves its loop when all its queues have ended. -/
  reorderLeft : pipe.reorder.phase ≠ .loop →
    ∀ q < setup.nqueues, (pipe.queues .reorder q).Ended

namespace Inv

/-- When all threads of a queue count as terminated, all have finished. -/
theorem all_finished {stage : Stage} {t : Nat} (inside : t < setup.nthreads)
    (all : (finishedOn setup pipe stage (setup.qid t)).card =
      setup.threadsPerQueue (setup.qid t)) : (pipe.workers stage t).phase = .finished := by
  rw [setup.counted _ (setup.known t inside)] at all
  have subset : finishedOn setup pipe stage (setup.qid t) ⊆
      (Finset.range setup.nthreads).filter fun t' => setup.qid t' = setup.qid t := by
    intro t' member
    simp only [finishedOn, Finset.mem_filter] at member ⊢
    exact ⟨member.1, member.2.1⟩
  have same := Finset.eq_of_subset_of_card_le subset all.ge
  have member : t ∈ finishedOn setup pipe stage (setup.qid t) := by
    rw [same]
    simpa using inside
  exact (Finset.mem_filter.mp member).2.2

/-- The output queues of the stages in the middle count the threads of the stage. -/
theorem nProducers_output (stage : Stage) (q : Nat) :
    setup.nProducers (stage.output .main) q = setup.threadsPerQueue q := by
  cases stage <;> rfl

variable {stage : Stage} {t : Nat}

/-- When the output queue of a thread is terminated, all threads of the queue have finished. -/
theorem finished_of_terminated (inv : Inv setup pipe) (stage : Stage)
    (inside : t < setup.nthreads)
    (terminated : (pipe.queues (stage.output .main) (setup.qid t)).isTerminated = true) :
    (pipe.workers stage t).phase = .finished := by
  rw [Queue.isTerminated_iff, inv.byWorkers stage _ (setup.known t inside), inv.producers,
    nProducers_output] at terminated
  exact all_finished inside terminated

/-- When a reorder queue is terminated, the threads of `Deduplicate` of the lane have finished:
the threads of `Compress` have seen the end of their compress queue. -/
theorem runs_bypass (inv : Inv setup pipe) (inside : t < setup.nthreads)
    (terminated : (pipe.queues .reorder (setup.qid t)).isTerminated = true) :
    (pipe.workers .deduplicate t).phase = .finished := by
  have compressed : (pipe.workers .compress t).phase = .finished :=
    inv.finished_of_terminated .compress inside terminated
  have ended := (inv.left .compress t inside (by rw [compressed]; simp)).1
  exact inv.finished_of_terminated .deduplicate inside ended.1

/-- A thread that puts chunks into a queue finds it not terminated. -/
theorem runs (inv : Inv setup pipe) (inside : t < setup.nthreads) (port : Port)
    (running : (pipe.workers stage t).phase ≠ .finished) :
    (pipe.queues (stage.output port) (setup.qid t)).isTerminated = false := by
  rw [← Bool.not_eq_true]
  intro terminated
  apply running
  cases port with
  | main => exact inv.finished_of_terminated _ inside terminated
  | bypass =>
    cases stage with
    | fragmentRefine => exact inv.finished_of_terminated _ inside terminated
    | deduplicate => exact inv.runs_bypass inside terminated
    | compress => exact inv.finished_of_terminated _ inside terminated

/-- A thread in a call of `queue_enqueue` has not finished. -/
theorem running (inv : Inv setup pipe) (inside : t < setup.nthreads) {port : Port}
    (busy : (pipe.workers stage t).enqueues = some port) :
    (pipe.workers stage t).phase ≠ .finished := by
  intro finished
  rw [(inv.idle stage t inside finished).1] at busy
  cases busy

/-- As long as `Fragment` has not terminated a queue, the queue is not terminated. -/
theorem runs_fragment (inv : Inv setup pipe) {q : Nat} (inside : q < setup.nqueues)
    (open_ : pipe.fragment.terminated ≤ q) : (pipe.queues .refine q).isTerminated = false := by
  rw [← Bool.not_eq_true, Queue.isTerminated_iff, inv.byFragment q inside, inv.producers,
    if_neg (Nat.not_lt.mpr open_)]
  exact Nat.zero_ne_one

/-- While `Fragment` is in a call of `queue_enqueue` it has terminated no queue. -/
theorem fragment_open (inv : Inv setup pipe) (busy : pipe.fragment.enqueues = true) :
    pipe.fragment.terminated = 0 := by
  by_contra some
  have idle := (inv.fragmentDone (Nat.pos_of_ne_zero some)).2.2
  rw [busy] at idle
  cases idle

/-- A queue that has ended stays so when a queue changes that had not, or that stays so too. -/
theorem ended_setQueue {que que' : Que} {q q' : Nat} {queue : Queue Sequence}
    (keeps : (pipe.queues que q).Ended → queue.Ended) (ended : (pipe.queues que' q').Ended) :
    ((pipe.setQueue que q queue).queues que' q').Ended := by
  rw [queues_setQueue]
  split
  · rename_i same
    obtain ⟨rfl, rfl⟩ := same
    exact keeps ended
  · exact ended

/-- An open queue has not ended. -/
theorem not_ended {que : Que} {q : Nat} (open_ : (pipe.queues que q).isTerminated = false) :
    ¬(pipe.queues que q).Ended := by
  intro ended
  rw [ended.1] at open_
  cases open_

/-- Terminating a queue does not change the number of its producers. -/
theorem producers_terminate (inv : Inv setup pipe) (que : Que) (q : Nat) (que' : Que) (q' : Nat) :
    ((pipe.setQueue que q (pipe.queues que q).terminate).queues que' q').nProducers =
      setup.nProducers que' q' := by
  rw [queues_setQueue]
  split
  · rename_i same
    obtain ⟨rfl, rfl⟩ := same
    exact inv.producers _ _
  · exact inv.producers que' q'

/-- Terminating a queue does not change what it has recorded. -/
theorem recorded_terminate (inv : Inv setup pipe) (que : Que) (q : Nat) (que' : Que) (q' : Nat) :
    ((pipe.setQueue que q (pipe.queues que q).terminate).queues que' q').Recorded := by
  rw [queues_setQueue]
  split
  · exact (inv.recorded _ _).terminate
  · exact inv.recorded que' q'

/-- A change of a queue that keeps its counts and, once it has ended, that it has ended. -/
theorem setQueue (inv : Inv setup pipe) (que : Que) (q : Nat) (queue : Queue Sequence)
    (producers : queue.nProducers = (pipe.queues que q).nProducers)
    (terminated : queue.nTerminated = (pipe.queues que q).nTerminated)
    (recorded : queue.Recorded) (ended : (pipe.queues que q).Ended → queue.Ended) :
    Inv setup (pipe.setQueue que q queue) := by
  -- every queue has its old counts, and has ended if it had
  have counts : ∀ que' q', ((pipe.setQueue que q queue).queues que' q').nProducers =
        (pipe.queues que' q').nProducers ∧
      ((pipe.setQueue que q queue).queues que' q').nTerminated =
        (pipe.queues que' q').nTerminated := by
    intro que' q'
    rw [queues_setQueue]
    split
    · rename_i same
      obtain ⟨rfl, rfl⟩ := same
      exact ⟨producers, terminated⟩
    · exact ⟨rfl, rfl⟩
  have ends : ∀ que' q', (pipe.queues que' q').Ended →
      ((pipe.setQueue que q queue).queues que' q').Ended := fun _ _ => ended_setQueue ended
  exact {
    producers := fun que' q' => (counts que' q').1.trans (inv.producers que' q')
    recorded := fun que' q' => by
      rw [queues_setQueue]
      split
      · exact recorded
      · exact inv.recorded que' q'
    byFragment := fun q' inside => (counts .refine q').2.trans (inv.byFragment q' inside)
    byWorkers := fun stage q' inside => (counts _ q').2.trans (inv.byWorkers stage q' inside)
    left := fun stage t inside gone =>
      have ⟨before, rest⟩ := inv.left stage t inside gone
      ⟨ends _ _ before, rest⟩
    idle := inv.idle
    fragmentDone := inv.fragmentDone
    fragmentBound := inv.fragmentBound
    fragmentQid := inv.fragmentQid
    reorderQid := inv.reorderQid
    tried := fun loops =>
      have ⟨less, first, here, before⟩ := inv.tried loops
      ⟨less, first, here, fun i below => ends _ _ (before i below)⟩
    reorderLeft := fun gone q' inside => ends _ _ (inv.reorderLeft gone q' inside) }

/-- A change of a thread that neither finishes nor was finished. -/
theorem setWorker (inv : Inv setup pipe) (inside : t < setup.nthreads) (worker : Worker)
    (before : (pipe.workers stage t).phase ≠ .finished) (after : worker.phase ≠ .finished)
    (left : worker.phase ≠ .loop → (pipe.queues stage.input (setup.qid t)).Ended ∧
      worker.recvBuf = [] ∧ worker.todo = []) :
    Inv setup (pipe.setWorker stage t worker) := by
  have same : ∀ stage' q, finishedOn setup (pipe.setWorker stage t worker) stage' q =
      finishedOn setup pipe stage' q := by
    intro stage' q
    apply Finset.filter_congr
    intro t' _
    rw [workers_setWorker]
    split
    · rename_i here
      obtain ⟨rfl, rfl⟩ := here
      simp [before, after]
    · rfl
  exact { inv with
    byWorkers := fun stage' q known => by
      rw [same]
      exact inv.byWorkers stage' q known
    left := fun stage' t' known => by
      rw [workers_setWorker]
      split
      · rename_i here
        obtain ⟨rfl, rfl⟩ := here
        exact left
      · exact inv.left stage' t' known
    idle := fun stage' t' known => by
      rw [workers_setWorker]
      split
      · exact fun gone => absurd gone after
      · exact inv.idle stage' t' known }

/-- The end of a thread, which terminates its output queue. -/
theorem terminate (inv : Inv setup pipe) (inside : t < setup.nthreads) (worker : Worker)
    (before : (pipe.workers stage t).phase ≠ .finished) (after : worker.phase = .finished)
    (left : (pipe.queues stage.input (setup.qid t)).Ended ∧ worker.recvBuf = [] ∧
      worker.todo = [])
    (idle : worker.enqueues = none ∧ ∀ port, worker.sendBuf port = []) :
    Inv setup ((pipe.setQueue (stage.output .main) (setup.qid t)
      (pipe.queues (stage.output .main) (setup.qid t)).terminate).setWorker stage t worker) := by
  have open_ := inv.runs inside .main before
  -- the queue had not ended, all others are as before
  have ends : ∀ que' q', (pipe.queues que' q').Ended →
      ((pipe.setQueue (stage.output .main) (setup.qid t)
        (pipe.queues (stage.output .main) (setup.qid t)).terminate).queues que' q').Ended :=
    fun _ _ => ended_setQueue fun ended => absurd ended (not_ended open_)
  have mains : ∀ stage' : Stage, stage'.output .main = stage.output .main → stage' = stage := by
    intro stage' same
    cases stage <;> cases stage' <;> first | rfl | cases same
  have refine_ : Que.refine ≠ stage.output .main := by
    cases stage <;> simp [Stage.output]
  have finished : ∀ stage' q', finishedOn setup (pipe.setWorker stage t worker) stage' q' =
      if stage' = stage ∧ q' = setup.qid t then insert t (finishedOn setup pipe stage' q')
      else finishedOn setup pipe stage' q' := by
    intro stage' q'
    ext t'
    by_cases here : stage' = stage ∧ t' = t
    · obtain ⟨rfl, rfl⟩ := here
      by_cases same : q' = setup.qid t'
      · subst same
        simp [finishedOn, after, inside]
      · simp [finishedOn, same, Ne.symm same]
    · have unchanged : t' ∈ finishedOn setup (pipe.setWorker stage t worker) stage' q' ↔
          t' ∈ finishedOn setup pipe stage' q' := by
        rw [finishedOn, finishedOn, Finset.mem_filter, Finset.mem_filter, workers_setWorker,
          if_neg here]
      rw [unchanged]
      split
      · rename_i same
        have other : t' ≠ t := fun equal => here ⟨same.1, equal⟩
        simp [other]
      · rfl
  exact {
    producers := inv.producers_terminate _ _
    recorded := inv.recorded_terminate _ _
    byFragment := fun q' known => by
      rw [queues_setWorker, queues_setQueue, if_neg fun same => refine_ same.1]
      exact inv.byFragment q' known
    byWorkers := fun stage' q' known => by
      show ((pipe.setQueue _ _ _).queues _ _).nTerminated =
        (finishedOn setup (pipe.setWorker stage t worker) stage' q').card
      rw [queues_setQueue, finished]
      by_cases same : stage' = stage ∧ q' = setup.qid t
      · obtain ⟨rfl, rfl⟩ := same
        have fresh : t ∉ finishedOn setup pipe stage' (setup.qid t) := by
          simp [finishedOn, before]
        rw [if_pos ⟨rfl, rfl⟩, if_pos ⟨rfl, rfl⟩, Finset.card_insert_of_notMem fresh,
          Queue.nTerminated_terminate, inv.byWorkers stage' _ known]
      · rw [if_neg fun both => same ⟨mains stage' both.1, both.2⟩, if_neg same]
        exact inv.byWorkers stage' q' known
    left := fun stage' t' known gone => by
      rw [workers_setWorker] at gone ⊢
      split at gone
      · rename_i here
        obtain ⟨rfl, rfl⟩ := here
        rw [if_pos ⟨rfl, rfl⟩]
        exact ⟨ends _ _ left.1, left.2⟩
      · rename_i away
        rw [if_neg away]
        have ⟨ended, rest⟩ := inv.left stage' t' known gone
        exact ⟨ends _ _ ended, rest⟩
    idle := fun stage' t' known => by
      rw [workers_setWorker]
      split
      · exact fun _ => idle
      · exact inv.idle stage' t' known
    fragmentDone := inv.fragmentDone
    fragmentBound := inv.fragmentBound
    fragmentQid := inv.fragmentQid
    reorderQid := inv.reorderQid
    tried := fun loops =>
      have ⟨less, first, here, before⟩ := inv.tried loops
      ⟨less, first, here, fun i below => ends _ _ (before i below)⟩
    reorderLeft := fun gone q' known => ends _ _ (inv.reorderLeft gone q' known) }

variable [DecidableEq κ] {input : Input κ} {next : Pipeline κ}

/-- Processing a chunk changes no queue and no thread. -/
theorem process_same (input : Input κ) (pipe : Pipeline κ) (stage : Stage) (chunk : Sequence) :
    (process input stage chunk pipe).2.queues = pipe.queues ∧
    (process input stage chunk pipe).2.workers = pipe.workers ∧
    (process input stage chunk pipe).2.fragment = pipe.fragment ∧
    (process input stage chunk pipe).2.reorder = pipe.reorder := by
  cases stage with
  | fragmentRefine => exact ⟨rfl, rfl, rfl, rfl⟩
  | deduplicate =>
    unfold process
    dsimp only
    cases pipe.cache (input.sha1 chunk) with
    | none => exact ⟨rfl, rfl, rfl, rfl⟩
    | some entry => exact ⟨rfl, rfl, rfl, rfl⟩
  | compress => exact ⟨rfl, rfl, rfl, rfl⟩

omit [DecidableEq κ] in
/-- The invariant is about the threads and the queues only. -/
theorem congr {other : Pipeline κ} (inv : Inv setup pipe) (queues : other.queues = pipe.queues)
    (workers : other.workers = pipe.workers) (fragment : other.fragment = pipe.fragment)
    (reorder : other.reorder = pipe.reorder) : Inv setup other := by
  obtain ⟨fragment', workers', queues', cache, ref, compressed, reorder'⟩ := other
  obtain rfl : queues' = pipe.queues := queues
  obtain rfl : workers' = pipe.workers := workers
  obtain rfl : fragment' = pipe.fragment := fragment
  obtain rfl : reorder' = pipe.reorder := reorder
  exact { inv with }

/-- A step of a thread of a stage in the middle keeps the invariant. -/
theorem stepWorker (inv : Inv setup pipe) (inside : t < setup.nthreads)
    (moves : WorkerStep setup input stage t pipe next) : Inv setup next := by
  -- a thread in its loop has not finished, and has not left
  have loops : ∀ {phase : Phase}, phase = .loop → phase ≠ .finished := by
    rintro _ rfl
    simp
  have drains : ∀ {phase : Phase}, phase = .drain → phase ≠ .finished ∧ phase ≠ .loop := by
    rintro _ rfl
    simp
  cases moves with
  | enqueue port busy room =>
    have running := inv.running inside busy
    have open_ := inv.runs inside port running
    have changed := inv.setQueue (stage.output port) (setup.qid t)
      ((pipe.queues (stage.output port) (setup.qid t)).enqueue setup.queueSize
        (setup.insert stage) ((pipe.workers stage t).sendBuf port)).2 rfl rfl
      (inv.recorded _ _).enqueue fun ended => absurd ended (not_ended open_)
    exact changed.setWorker inside _ running running (changed.left stage t inside)
  | insert port chunk todo idle phase more =>
    exact inv.setWorker inside _ (loops phase) (loops phase) fun gone => absurd phase gone
  | process chunk recvBuf idle phase done received =>
    obtain ⟨queues, workers, fragment, reorder⟩ := process_same input pipe stage chunk
    have processed := inv.congr queues workers fragment reorder
    exact processed.setWorker inside _ (by rw [workers]; exact loops phase) (loops phase)
      fun gone => absurd phase gone
  | dequeue idle phase done received some =>
    have changed := inv.setQueue stage.input (setup.qid t)
      ((pipe.queues stage.input (setup.qid t)).dequeue (setup.fetch stage)).2 rfl rfl
      (inv.recorded _ _).dequeue fun ended => ended.dequeue
    exact changed.setWorker inside _ (loops phase) (loops phase) fun gone => absurd phase gone
  | leave idle phase done received ended =>
    exact inv.setWorker inside _ (loops phase) (by simp) fun _ => ⟨ended, received, done⟩
  | flush port idle phase rest =>
    exact inv.setWorker inside _ (drains phase).1 (drains phase).1
      fun gone => inv.left stage t inside gone
  | terminate idle phase flushed =>
    exact inv.terminate inside _ (drains phase).1 rfl (inv.left stage t inside (drains phase).2)
      ⟨idle, flushed⟩

omit [DecidableEq κ] in
/-- A step of `Fragment` keeps the invariant. -/
theorem stepFragment (inv : Inv setup pipe) (moves : FragmentStep setup pipe next) :
    Inv setup next := by
  have positive := setup.nqueues_pos
  cases moves with
  | enqueue busy room =>
    have none := inv.fragment_open busy
    have open_ := inv.runs_fragment inv.fragmentQid (by omega)
    have changed := inv.setQueue .refine pipe.fragment.qid
      ((pipe.queues .refine pipe.fragment.qid).enqueue setup.queueSize
        setup.anchorDataPerInsert pipe.fragment.sendBuf).2 rfl rfl
      (inv.recorded _ _).enqueue fun ended => absurd ended (not_ended open_)
    exact { changed with
      fragmentDone := fun some => absurd none (Nat.pos_iff_ne_zero.mp some)
      fragmentQid := Nat.mod_lt _ positive }
  | insert chunk todo idle more =>
    have none : pipe.fragment.terminated = 0 := by
      by_contra some
      have done := (inv.fragmentDone (Nat.pos_of_ne_zero some)).1
      rw [more] at done
      cases done
    exact { inv with fragmentDone := fun some => absurd none (Nat.pos_iff_ne_zero.mp some) }
  | flush idle done rest =>
    have none : pipe.fragment.terminated = 0 := by
      by_contra some
      exact rest (inv.fragmentDone (Nat.pos_of_ne_zero some)).2.1
    exact { inv with fragmentDone := fun some => absurd none (Nat.pos_iff_ne_zero.mp some) }
  | terminate idle done flushed more =>
    have open_ := inv.runs_fragment more le_rfl
    have ends : ∀ que' q', (pipe.queues que' q').Ended →
        ((pipe.setQueue .refine pipe.fragment.terminated
          (pipe.queues .refine pipe.fragment.terminated).terminate).queues que' q').Ended :=
      fun _ _ => ended_setQueue fun ended => absurd ended (not_ended open_)
    exact { inv with
      producers := inv.producers_terminate _ _
      recorded := inv.recorded_terminate _ _
      byFragment := fun q' known => by
        show ((pipe.setQueue _ _ _).queues _ _).nTerminated = _
        have before := inv.byFragment q' known
        rw [queues_setQueue]
        dsimp only
        split
        · rename_i same
          obtain ⟨-, rfl⟩ := same
          rw [Queue.nTerminated_terminate, before, if_neg (lt_irrefl _),
            if_pos (Nat.lt_succ_self _)]
        · rename_i other
          have apart : q' ≠ pipe.fragment.terminated := fun same => other ⟨rfl, same⟩
          rw [before]
          split
          · rw [if_pos (by omega)]
          · rw [if_neg (by omega)]
      byWorkers := fun stage q' known => by
        have other : ¬(stage.output .main = .refine ∧ q' = pipe.fragment.terminated) := by
          rintro ⟨same, -⟩
          cases stage <;> cases same
        show ((pipe.setQueue _ _ _).queues _ _).nTerminated = _
        rw [queues_setQueue, if_neg other]
        exact inv.byWorkers stage q' known
      left := fun stage t known gone =>
        have ⟨ended, rest⟩ := inv.left stage t known gone
        ⟨ends _ _ ended, rest⟩
      fragmentDone := fun _ => ⟨done, flushed, idle⟩
      fragmentBound := more
      tried := fun loops =>
        have ⟨less, first, here, before⟩ := inv.tried loops
        ⟨less, first, here, fun i below => ends _ _ (before i below)⟩
      reorderLeft := fun gone q' known => ends _ _ (inv.reorderLeft gone q' known) }

/-- The numbers of all queues come up when one counts from any number on. -/
theorem exists_turn {q nqueues : Nat} (first : Nat) (inside : q < nqueues) :
    ∃ i < nqueues, (first + i) % nqueues = q := by
  have split := Nat.div_add_mod first nqueues
  have below : first % nqueues < nqueues := Nat.mod_lt _ (by omega)
  by_cases above : first % nqueues ≤ q
  · refine ⟨q - first % nqueues, by omega, ?_⟩
    rw [show first + (q - first % nqueues) = nqueues * (first / nqueues) + q by omega,
      Nat.mul_add_mod, Nat.mod_eq_of_lt inside]
  · refine ⟨q + nqueues - first % nqueues, by omega, ?_⟩
    rw [show first + (q + nqueues - first % nqueues) =
      nqueues * (first / nqueues) + (nqueues + q) by omega, Nat.mul_add_mod,
      Nat.add_mod_left, Nat.mod_eq_of_lt inside]

/-- Writing a chunk does not change the turn or the phase of `Reorder`. -/
theorem wrote_same (chunk : Sequence) (reorder : Reorderer) :
    (wrote chunk reorder).qid = reorder.qid ∧ (wrote chunk reorder).tried = reorder.tried ∧
      (wrote chunk reorder).phase = reorder.phase := by
  unfold wrote
  dsimp only
  split
  · split_ifs <;> exact ⟨rfl, rfl, rfl⟩
  · exact ⟨rfl, rfl, rfl⟩

omit [DecidableEq κ] in
/-- Receiving a chunk does not change the turn or the phase of `Reorder`. -/
theorem received_same (input : Input κ) (chunk : Sequence) (recvBuf : List Sequence)
    (reorder : Reorderer) :
    (received input chunk recvBuf reorder).qid = reorder.qid ∧
      (received input chunk recvBuf reorder).tried = reorder.tried ∧
      (received input chunk recvBuf reorder).phase = reorder.phase := by
  unfold received
  dsimp only
  split
  · exact ⟨rfl, rfl, rfl⟩
  · exact ⟨rfl, rfl, rfl⟩

omit [DecidableEq κ] in
/-- A change of `Reorder` that keeps its turn and its phase. -/
theorem setReorder (inv : Inv setup pipe) (reorder : Reorderer)
    (qid : reorder.qid = pipe.reorder.qid) (tried : reorder.tried = pipe.reorder.tried)
    (phase : reorder.phase = pipe.reorder.phase) :
    Inv setup { pipe with reorder := reorder } :=
  { inv with
    reorderQid := by
      show reorder.qid < _
      rw [qid]
      exact inv.reorderQid
    tried := by
      show reorder.phase = _ → reorder.tried < _ ∧ ∃ first, reorder.qid = _ ∧ ∀ i < reorder.tried, _
      rw [phase, qid, tried]
      exact inv.tried
    reorderLeft := by
      show reorder.phase ≠ _ → _
      rw [phase]
      exact inv.reorderLeft }

omit [DecidableEq κ] in
/-- A step of `Reorder` keeps the invariant. -/
theorem stepReorder (inv : Inv setup pipe) (moves : ReorderStep setup input pipe next) :
    Inv setup next := by
  have positive := setup.nqueues_pos
  cases moves with
  | write chunk busy ready =>
    obtain ⟨qid, tried, phase⟩ := wrote_same chunk pipe.reorder
    exact inv.setReorder _ qid tried phase
  | receive chunk recvBuf idle phase got =>
    obtain ⟨qid, tried, same⟩ := received_same input chunk recvBuf pipe.reorder
    exact inv.setReorder _ qid tried same
  | skip idle phase got ended =>
    obtain ⟨less, first, here, before⟩ := inv.tried phase
    -- one more queue in turn has ended
    have all : ∀ i < pipe.reorder.tried + 1,
        (pipe.queues .reorder ((first + i) % setup.nqueues)).Ended := by
      intro i below
      rcases Nat.lt_succ_iff_lt_or_eq.mp below with earlier | rfl
      · exact before i earlier
      · rw [← here]
        exact ended
    exact { inv with
      reorderQid := Nat.mod_lt _ positive
      tried := fun loops => by
        dsimp only at loops ⊢
        split at loops
        · cases loops
        · refine ⟨by omega, first, ?_, all⟩
          rw [here, Nat.mod_add_mod, Nat.add_assoc]
      reorderLeft := fun gone q known => by
        dsimp only at gone
        split at gone
        · rename_i last
          obtain ⟨i, below, turn⟩ := exists_turn first known
          rw [← turn]
          exact all i (last ▸ below)
        · exact absurd rfl gone }
  | dequeue idle phase got some =>
    have changed := inv.setQueue .reorder pipe.reorder.qid
      ((pipe.queues .reorder pipe.reorder.qid).dequeue setup.itemPerFetch).2 rfl rfl
      (inv.recorded _ _).dequeue fun ended => ended.dequeue
    exact { changed with
      reorderQid := Nat.mod_lt _ positive
      tried := fun _ => ⟨positive, pipe.reorder.qid + 1, rfl, fun i below =>
        absurd below (Nat.not_lt_zero i)⟩ }
  | take chunk tree idle phase left => exact inv.setReorder _ rfl rfl rfl
  | finish idle phase =>
    exact { inv with
      tried := fun loops => by cases loops
      reorderLeft := fun _ => inv.reorderLeft (by rw [phase]; simp) }

/-- Every step keeps the invariant. -/
theorem step (inv : Inv setup pipe) (moves : Step setup input pipe next) : Inv setup next := by
  cases moves with
  | fragment moves => exact inv.stepFragment moves
  | worker stage t inside moves => exact inv.stepWorker inside moves
  | reorder moves => exact inv.stepReorder moves

omit [DecidableEq κ] in
/-- The pipeline at the start. -/
theorem start (setup : Setup) (input : Input κ) : Inv setup (start setup input) where
  producers _ _ := rfl
  recorded _ _ := Queue.recorded_init _
  byFragment _ _ := rfl
  byWorkers stage q _ := by
    have none : finishedOn setup (Pipeline.start setup input) stage q = ∅ := by
      simp [finishedOn, Pipeline.start]
    rw [none]
    rfl
  left _ _ _ gone := absurd rfl gone
  idle _ _ _ finished := by cases finished
  fragmentDone some := absurd some (lt_irrefl _)
  fragmentBound := Nat.zero_le _
  fragmentQid := setup.nqueues_pos
  reorderQid := setup.nqueues_pos
  tried _ := ⟨setup.nqueues_pos, 0, rfl, fun i below => absurd below (Nat.not_lt_zero i)⟩
  reorderLeft gone := absurd rfl gone

end Inv

variable [DecidableEq κ] {input : Input κ} {next : Pipeline κ}

/-- The invariant holds in every reachable state. -/
theorem Reached.inv (reached : Reached setup input pipe) : Inv setup pipe := by
  apply Reachable.invariant ?_ ?_ reached
  · rintro _ rfl
    exact Inv.start setup input
  · rintro pipe next inv ⟨action, moves⟩
    exact inv.step (step_of_act moves)

/-- A step leaves a queue as it is or takes chunks out of it, unless the queue is open. -/
theorem Inv.queues_step (inv : Inv setup pipe) (moves : Step setup input pipe next) (que : Que)
    (q : Nat) : next.queues que q = pipe.queues que q ∨
      (∃ limit, next.queues que q = ((pipe.queues que q).dequeue limit).2) ∨
      (pipe.queues que q).isTerminated = false := by
  -- a changed queue is this one or another one
  have changed : ∀ {que' : Que} {q' : Nat} {queue : Queue Sequence},
      ((∃ limit, queue = ((pipe.queues que' q').dequeue limit).2) ∨
        (pipe.queues que' q').isTerminated = false) →
      (pipe.setQueue que' q' queue).queues que q = pipe.queues que q ∨
        (∃ limit, (pipe.setQueue que' q' queue).queues que q =
          ((pipe.queues que q).dequeue limit).2) ∨
        (pipe.queues que q).isTerminated = false := by
    intro que' q' queue known
    rw [queues_setQueue]
    split
    · rename_i same
      obtain ⟨rfl, rfl⟩ := same
      exact .inr known
    · exact .inl rfl
  cases moves with
  | fragment moves =>
    cases moves with
    | enqueue busy room =>
      have none := inv.fragment_open busy
      exact changed (.inr (inv.runs_fragment inv.fragmentQid (by omega)))
    | insert chunk todo idle more => exact .inl rfl
    | flush idle done rest => exact .inl rfl
    | terminate idle done flushed more =>
      exact changed (.inr (inv.runs_fragment more le_rfl))
  | worker stage t inside moves =>
    cases moves with
    | enqueue port busy room =>
      exact changed (.inr (inv.runs inside port (inv.running inside busy)))
    | insert port chunk todo idle phase more => exact .inl rfl
    | process chunk recvBuf idle phase done received =>
      have same := (process_same input pipe stage chunk).1
      rw [queues_setWorker, same]
      exact .inl rfl
    | dequeue idle phase done received some => exact changed (.inl ⟨_, rfl⟩)
    | leave idle phase done received ended => exact .inl rfl
    | flush port idle phase rest => exact .inl rfl
    | terminate idle phase flushed =>
      exact changed (.inr (inv.runs inside .main (by rw [phase]; simp)))
  | reorder moves =>
    cases moves with
    | write chunk busy ready => exact .inl rfl
    | receive chunk recvBuf idle phase got => exact .inl rfl
    | skip idle phase got ended => exact .inl rfl
    | dequeue idle phase got some => exact changed (.inl ⟨_, rfl⟩)
    | take chunk tree idle phase left => exact .inl rfl
    | finish idle phase => exact .inl rfl

/-- A queue that has ended gets no more chunks. -/
theorem Inv.ended_step (inv : Inv setup pipe) (moves : Step setup input pipe next) {que : Que}
    {q : Nat} (ended : (pipe.queues que q).Ended) :
    (next.queues que q).Ended ∧ (next.queues que q).enqueued = (pipe.queues que q).enqueued := by
  rcases inv.queues_step moves que q with same | ⟨limit, same⟩ | runs
  · rw [same]
    exact ⟨ended, rfl⟩
  · rw [same]
    exact ⟨ended.dequeue, rfl⟩
  · rw [ended.1] at runs
    cases runs

/-- The states that a run comes to from a state. -/
def Later (setup : Setup) (input : Input κ) : Pipeline κ → Pipeline κ → Prop :=
  Relation.ReflTransGen fun pipe next => ∃ action, act setup input pipe action = some next

/-- A queue that has ended has given out all its chunks and never gets another one. -/
theorem Inv.ended_later (inv : Inv setup pipe) {later : Pipeline κ}
    (run : Later setup input pipe later) {que : Que} {q : Nat}
    (ended : (pipe.queues que q).Ended) :
    (later.queues que q).enqueued = (pipe.queues que q).dequeued := by
  have kept : Inv setup later ∧ (later.queues que q).Ended ∧
      (later.queues que q).enqueued = (pipe.queues que q).enqueued := by
    induction run with
    | refl => exact ⟨inv, ended, rfl⟩
    | tail _ moves ih =>
      obtain ⟨action, moves⟩ := moves
      obtain ⟨inv, ended, same⟩ := ih
      have next := inv.ended_step (step_of_act moves) ended
      exact ⟨inv.step (step_of_act moves), next.1, next.2.trans same⟩
  rw [kept.2.2, (inv.recorded que q).ended ended]

/-- In every reachable state no thread puts chunks into a terminated queue. The chunks taken out
of a queue are the first ones put in, each once, and when a consumer of a queue has left its loop
they are all that are ever put in. A reorder queue is terminated only when the threads of
`Deduplicate` of the lane have nothing left to put into it. -/
theorem queues_terminate (reached : Reached setup input pipe) :
    (pipe.fragment.enqueues = true →
      (pipe.queues .refine pipe.fragment.qid).isTerminated = false) ∧
    (∀ stage, ∀ t < setup.nthreads, ∀ port, (pipe.workers stage t).enqueues = some port →
      (pipe.queues (stage.output port) (setup.qid t)).isTerminated = false) ∧
    (∀ que q, (pipe.queues que q).enqueued =
      (pipe.queues que q).dequeued ++ (pipe.queues que q).buf) ∧
    (∀ stage, ∀ t < setup.nthreads, (pipe.workers stage t).phase ≠ .loop →
      ∀ later, Later setup input pipe later →
        (later.queues stage.input (setup.qid t)).enqueued =
          (pipe.queues stage.input (setup.qid t)).dequeued) ∧
    (pipe.reorder.phase ≠ .loop → ∀ q < setup.nqueues, ∀ later, Later setup input pipe later →
      (later.queues .reorder q).enqueued = (pipe.queues .reorder q).dequeued) ∧
    (∀ t < setup.nthreads, (pipe.queues .reorder (setup.qid t)).isTerminated = true →
      (pipe.workers .deduplicate t).phase = .finished ∧
      (pipe.workers .deduplicate t).recvBuf = [] ∧ (pipe.workers .deduplicate t).todo = [] ∧
      (∀ port, (pipe.workers .deduplicate t).sendBuf port = []) ∧
      (pipe.queues .deduplicate (setup.qid t)).buf = []) := by
  have inv : Inv setup pipe := reached.inv
  refine ⟨fun busy => ?_, fun stage t inside port busy => ?_, inv.recorded,
    fun stage t inside gone later run => ?_, fun gone q inside later run => ?_,
    fun t inside terminated => ?_⟩
  · have none := inv.fragment_open busy
    exact inv.runs_fragment inv.fragmentQid (by omega)
  · exact inv.runs inside port (inv.running inside busy)
  · exact inv.ended_later run (inv.left stage t inside gone).1
  · exact inv.ended_later run (inv.reorderLeft gone q inside)
  · have finished := inv.runs_bypass inside terminated
    have left := inv.left .deduplicate t inside (by rw [finished]; simp)
    exact ⟨finished, left.2.1, left.2.2, (inv.idle .deduplicate t inside finished).2, left.1.2⟩

/-- One thread a stage, queues and buffers for one chunk. -/
def narrow : Setup := .encode 1 1 1 Nat.one_pos Nat.one_pos Nat.one_pos

/-- Two equal fine chunks. -/
def twins : Input Nat := ⟨[2], fun _ => 0⟩

/-- A run of the threads on the equal chunks, to the end of `Compress`. -/
def twinsRun : List Action :=
  [(4, .fragment), (5, .worker .fragmentRefine 0), (1, .worker .deduplicate 0),
    (3, .worker .fragmentRefine 0), (9, .worker .deduplicate 0), (3, .worker .compress 0),
    (1, .reorder), (3, .worker .compress 0)].flatMap fun entry => List.replicate entry.1 entry.2

/-- The actions are a run of the pipeline. -/
theorem twins_run : (acts narrow twins (start narrow twins) twinsRun).isSome = true := by
  decide +kernel

/-- The equal chunks have both been put into the reorder queue when it is terminated. -/
theorem queues_terminate_sample : ∃ pipe, Reached narrow twins pipe ∧
    (pipe.queues .reorder 0).isTerminated = true ∧
    (pipe.queues .reorder 0).enqueued = [⟨0, 1⟩, ⟨0, 0⟩] ∧
    (pipe.workers .deduplicate 0).phase = .finished ∧
    (pipe.queues .deduplicate 0).buf = [] := by
  have reached : Reached narrow twins ((acts narrow twins (start narrow twins) twinsRun).get
      twins_run) := Reached.acts (.start rfl) (Option.some_get twins_run).symm
  have ended : (((acts narrow twins (start narrow twins) twinsRun).get
      twins_run).queues .reorder 0).isTerminated = true := by
    decide +kernel
  have left := (queues_terminate reached).2.2.2.2.2 0 Nat.one_pos ended
  exact ⟨_, reached, ended, by decide +kernel, left.1, left.2.2.2.2⟩

end P3arsec.Dedup.Pthreads.Pipeline
