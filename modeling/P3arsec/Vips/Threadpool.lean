import P3arsec.Lib.Marks
import P3arsec.Lib.Run

/-!
# The thread pool

Each worker takes the allocate lock, lets the client set up a work unit in its thread state, gives
the lock back and lets the client work on the unit. The client says in the call of `allocate` that
there is no more work. After every round the worker makes the main side tick, which calls
`progress`: the collector of the farm, or the main thread.

The callbacks are the client's. What one does next is part of the action of the thread that called
it; the pool keeps a record of what was handed out and worked on. `units` bounds the work of the
client: when it has handed out that many units, `allocate` stops or fails.
-/

namespace P3arsec.Vips

open P3arsec.Lib

/-- The versions of `vips_threadpool_run`. -/
inductive Version where
  /-- The farm of FastFlow. -/
  | fastFlow
  /-- The threads of the thread library. -/
  | pthreads
  deriving DecidableEq, Repr

/-- A call of `vips_threadpool_run`. -/
structure Call where
  /-- The version. -/
  version : Version
  /-- `nthr`. -/
  nthr : Nat
  /-- `im_concurrency_get` is at least one. -/
  nthr_pos : 0 < nthr
  /-- The number of work units of the client. -/
  units : Nat
  /-- `progress` is not `NULL`. -/
  progress : Bool

/-- Where a worker is. -/
inductive Point where
  /-- At the begin of `vips_thread_work_unit`. -/
  | entry
  /-- It waits for the allocate lock. -/
  | lock
  /-- It has the lock and looks whether another worker has signalled stop. -/
  | stopTest
  /-- At the begin of `vips_thread_allocate`. -/
  | allocate
  /-- In the call of `start`. -/
  | start
  /-- In the call of `allocate`. -/
  | allocating
  /-- It looks whether it has just signalled stop. -/
  | handed
  /-- In the call of `work`. -/
  | work
  /-- It makes the main side tick. -/
  | tick
  /-- At the test of the loop. -/
  | loopTest
  /-- It has left the loop. -/
  | ended
  deriving DecidableEq, Repr

/-- The worker has the allocate lock. -/
def Point.locked : Point → Bool
  | .stopTest => true
  | .allocate => true
  | .start => true
  | .allocating => true
  | .handed => true
  | _ => false

/-- `VipsThread`. -/
structure VipsThread where
  /-- `state`, a number for each state that `start` has made. -/
  state : Option Nat
  /-- `error`. -/
  error : Bool
  /-- Where it is. -/
  point : Point
  /-- The work unit that was handed out to it and that it has not worked on. -/
  unit : Option Nat
  deriving DecidableEq, Repr

/-- Where the main side is: the collector, or the main thread. -/
inductive MainPoint where
  /-- It waits for a tick. -/
  | wait
  /-- At the test after a tick. -/
  | test
  /-- In the call of `progress`. -/
  | progress
  /-- At the test after `progress`. -/
  | testAgain
  /-- It waits for all workers. -/
  | finish
  /-- `vips_threadpool_run` has returned. -/
  | returned
  deriving DecidableEq, Repr

/-- `VipsThreadpool`, with a record of the calls of the client. -/
structure VipsThreadpool where
  /-- `stop`. -/
  stop : Bool
  /-- `error`. -/
  error : Bool
  /-- The worker that has `allocate_lock`. -/
  allocateLock : Option Nat
  /-- `thr`. -/
  thr : Nat → VipsThread
  /-- The ticks that the main side has not seen. -/
  ticks : Nat
  /-- Where the main side is. -/
  main : MainPoint
  /-- The number of states that `start` has made. -/
  states : Nat
  /-- The work unit that `allocate` has set up in a thread state. -/
  slot : Option Nat → Option Nat
  /-- The units that the client has left. -/
  left : Nat
  /-- The work units handed out, with the thread state. -/
  handed : List (Option Nat × Nat)
  /-- The calls of `work`: the thread state and the unit set up in it. -/
  worked : List (Option Nat × Option Nat)
  /-- `stop` at each call of `vips_thread_allocate`. -/
  calls : List Bool
  /-- A call of `start`, `allocate` or `work` has failed. -/
  failedWorker : Bool
  /-- A call of `progress` has failed. -/
  failedProgress : Bool

/-- What a callback does next. Everything else that a thread does is `ok`. -/
inductive Reply where
  /-- It returns success. -/
  | ok
  /-- It returns an error. -/
  | error
  /-- `allocate` sets `stop` and goes on. -/
  | stop
  deriving DecidableEq, Repr

/-- A step of a worker or of the main side. -/
inductive Action where
  /-- A step of a worker. -/
  | worker (t : Nat) (reply : Reply)
  /-- A step of the main side. -/
  | main (reply : Reply)
  deriving DecidableEq, Repr

namespace VipsThreadpool

variable (call : Call)

/-- The pool with one worker changed. -/
def setThr (pool : VipsThreadpool) (t : Nat) (thr : VipsThread) : VipsThreadpool :=
  { pool with thr := Function.update pool.thr t thr }

/-- The pool when the workers begin. -/
def start : VipsThreadpool where
  stop := false
  error := false
  allocateLock := none
  thr _ := ⟨none, false, .entry, none⟩
  ticks := 0
  main := .wait
  states := 0
  slot _ := none
  left := call.units
  handed := []
  worked := []
  calls := []
  failedWorker := false
  failedProgress := false

/-- The next step of a worker. -/
def stepWorker (t : Nat) (reply : Reply) (pool : VipsThreadpool) : Option VipsThreadpool :=
  let thr := pool.thr t
  if call.nthr ≤ t then none
  else match thr.point, reply with
  | .entry, .ok =>
    some (pool.setThr t { thr with point := if thr.error then .tick else .lock })
  | .lock, .ok =>
    if pool.allocateLock.isSome then none
    else some ({ pool with allocateLock := some t }.setThr t { thr with point := .stopTest })
  | .stopTest, .ok =>
    if pool.stop then
      some ({ pool with allocateLock := none }.setThr t { thr with point := .tick })
    else some (pool.setThr t { thr with point := .allocate })
  | .allocate, .ok =>
    some ({ pool with calls := pool.calls ++ [pool.stop] }.setThr t { thr with
      point := if thr.state.isNone then .start else .allocating })
  | .start, .ok =>
    some ({ pool with states := pool.states + 1 }.setThr t { thr with
      state := some pool.states, point := .allocating })
  | .start, .error =>
    some ({ pool with allocateLock := none, failedWorker := true }.setThr t { thr with
      error := true, point := .tick })
  | .allocating, .stop =>
    if pool.stop then none else some { pool with stop := true }
  | .allocating, .ok =>
    if pool.stop then some (pool.setThr t { thr with point := .handed })
    else if pool.left = 0 then none
    else some ({ pool with
      left := pool.left - 1
      handed := pool.handed ++ [(thr.state, pool.handed.length)]
      slot := Function.update pool.slot thr.state (some pool.handed.length) }.setThr t { thr with
        unit := some pool.handed.length, point := .handed })
  | .allocating, .error =>
    some ({ pool with allocateLock := none, failedWorker := true }.setThr t { thr with
      error := true, point := .tick })
  | .handed, .ok =>
    some ({ pool with allocateLock := none }.setThr t { thr with
      point := if pool.stop then .tick else .work })
  | .work, .ok =>
    some ({ pool with worked := pool.worked ++ [(thr.state, pool.slot thr.state)] }.setThr t
      { thr with unit := none, point := .tick })
  | .work, .error =>
    some ({ pool with
      worked := pool.worked ++ [(thr.state, pool.slot thr.state)], failedWorker := true }.setThr t
      { thr with unit := none, error := true, point := .tick })
  | .tick, .ok =>
    some ({ pool with ticks := pool.ticks + 1 }.setThr t { thr with point := .loopTest })
  | .loopTest, .ok =>
    some (pool.setThr t { thr with
      point := if pool.stop || pool.error then .ended else .entry })
  | _, _ => none

/-- All workers have left their loops. -/
def allEnded (pool : VipsThreadpool) : Bool :=
  decide (∀ t < call.nthr, (pool.thr t).point = .ended)

/-- The next step of the main side. The collector calls `progress` for every tick and ends with
the workers; the main thread waits for them when it has seen stop or an error. -/
def stepMain (reply : Reply) (pool : VipsThreadpool) : Option VipsThreadpool :=
  match call.version, pool.main, reply with
  | .fastFlow, .wait, .ok =>
    if 0 < pool.ticks then
      some { pool with
        ticks := pool.ticks - 1, main := if call.progress then .progress else .wait }
    else if pool.allEnded call then some { pool with main := .returned }
    else none
  | .fastFlow, .progress, .ok => some { pool with main := .wait }
  | .fastFlow, .progress, .error =>
    some { pool with error := true, failedProgress := true, main := .wait }
  | .pthreads, .wait, .ok =>
    if 0 < pool.ticks then some { pool with ticks := pool.ticks - 1, main := .test } else none
  | .pthreads, .test, .ok =>
    some { pool with main :=
      if pool.stop || pool.error then .finish
      else if call.progress then .progress else .testAgain }
  | .pthreads, .progress, .ok => some { pool with main := .testAgain }
  | .pthreads, .progress, .error =>
    some { pool with error := true, failedProgress := true, main := .testAgain }
  | .pthreads, .testAgain, .ok =>
    some { pool with main := if pool.stop || pool.error then .finish else .wait }
  | .pthreads, .finish, .ok =>
    if pool.allEnded call then some { pool with main := .returned } else none
  | _, _, _ => none

/-- One step. -/
def act (pool : VipsThreadpool) : Action → Option VipsThreadpool
  | .worker t reply => stepWorker call t reply pool
  | .main reply => stepMain call reply pool

/-- Steps in an order. -/
def acts (pool : VipsThreadpool) : List Action → Option VipsThreadpool
  | [] => some pool
  | action :: actions => (act call pool action).bind fun next => acts next actions

/-- The states of all interleavings, whatever the callbacks return. -/
def Reached : VipsThreadpool → Prop :=
  Reachable (· = start call) fun pool next => ∃ action, act call pool action = some next

/-- The result of `vips_threadpool_run`. -/
def result (pool : VipsThreadpool) : Int := if pool.error then -1 else 0

/-- Some callback has failed. -/
def Failed (pool : VipsThreadpool) : Prop := pool.failedWorker = true ∨ pool.failedProgress = true

variable {call} {pool next : VipsThreadpool} {t : Nat} {reply : Reply}

/-- The kinds of steps of a worker. -/
inductive WorkerStep (t : Nat) (pool : VipsThreadpool) : Reply → VipsThreadpool → Prop where
  /-- A round begins. -/
  | enter (here : (pool.thr t).point = .entry) :
      WorkerStep t pool .ok (pool.setThr t { pool.thr t with
        point := if (pool.thr t).error then .tick else .lock })
  /-- It gets the allocate lock. -/
  | lock (here : (pool.thr t).point = .lock) (free : pool.allocateLock = none) :
      WorkerStep t pool .ok ({ pool with allocateLock := some t }.setThr t
        { pool.thr t with point := .stopTest })
  /-- Another worker has signalled stop. -/
  | stopped (here : (pool.thr t).point = .stopTest) (stop : pool.stop = true) :
      WorkerStep t pool .ok ({ pool with allocateLock := none }.setThr t
        { pool.thr t with point := .tick })
  /-- No worker has signalled stop. -/
  | goOn (here : (pool.thr t).point = .stopTest) (stop : pool.stop = false) :
      WorkerStep t pool .ok (pool.setThr t { pool.thr t with point := .allocate })
  /-- It calls `start` or `allocate`. -/
  | allocate (here : (pool.thr t).point = .allocate) :
      WorkerStep t pool .ok ({ pool with calls := pool.calls ++ [pool.stop] }.setThr t
        { pool.thr t with point := if (pool.thr t).state.isNone then .start else .allocating })
  /-- `start` has made a state. -/
  | started (here : (pool.thr t).point = .start) :
      WorkerStep t pool .ok ({ pool with states := pool.states + 1 }.setThr t { pool.thr t with
        state := some pool.states, point := .allocating })
  /-- `start` or `allocate` has failed. -/
  | failed (here : (pool.thr t).point = .start ∨ (pool.thr t).point = .allocating) :
      WorkerStep t pool .error ({ pool with allocateLock := none, failedWorker := true }.setThr t
        { pool.thr t with error := true, point := .tick })
  /-- `allocate` sets stop. -/
  | stop (here : (pool.thr t).point = .allocating) (goes : pool.stop = false) :
      WorkerStep t pool .stop { pool with stop := true }
  /-- `allocate` returns after it has set stop. -/
  | last (here : (pool.thr t).point = .allocating) (stop : pool.stop = true) :
      WorkerStep t pool .ok (pool.setThr t { pool.thr t with point := .handed })
  /-- `allocate` hands out a work unit. -/
  | hand (here : (pool.thr t).point = .allocating) (stop : pool.stop = false)
      (some : pool.left ≠ 0) :
      WorkerStep t pool .ok ({ pool with
        left := pool.left - 1
        handed := pool.handed ++ [((pool.thr t).state, pool.handed.length)]
        slot := Function.update pool.slot (pool.thr t).state
          (Option.some pool.handed.length) }.setThr t { pool.thr t with
          unit := Option.some pool.handed.length, point := .handed })
  /-- It gives the lock back. -/
  | unlock (here : (pool.thr t).point = .handed) :
      WorkerStep t pool .ok ({ pool with allocateLock := none }.setThr t { pool.thr t with
        point := if pool.stop then .tick else .work })
  /-- `work` has worked on the unit. -/
  | work (here : (pool.thr t).point = .work) :
      WorkerStep t pool .ok ({ pool with
        worked := pool.worked ++ [((pool.thr t).state, pool.slot (pool.thr t).state)] }.setThr t
        { pool.thr t with unit := none, point := .tick })
  /-- `work` has failed. -/
  | workFailed (here : (pool.thr t).point = .work) :
      WorkerStep t pool .error ({ pool with
        worked := pool.worked ++ [((pool.thr t).state, pool.slot (pool.thr t).state)]
        failedWorker := true }.setThr t
        { pool.thr t with unit := none, error := true, point := .tick })
  /-- It makes the main side tick. -/
  | tick (here : (pool.thr t).point = .tick) :
      WorkerStep t pool .ok ({ pool with ticks := pool.ticks + 1 }.setThr t
        { pool.thr t with point := .loopTest })
  /-- It goes round again or leaves. -/
  | loop (here : (pool.thr t).point = .loopTest) :
      WorkerStep t pool .ok (pool.setThr t { pool.thr t with
        point := if pool.stop || pool.error then .ended else .entry })

/-- A step of a worker is one of these. -/
theorem workerStep_of_step (moves : stepWorker call t reply pool = some next) :
    t < call.nthr ∧ WorkerStep t pool reply next := by
  have inside : t < call.nthr := by
    by_contra outside
    unfold stepWorker at moves
    simp only [if_pos (Nat.le_of_not_lt outside)] at moves
    cases moves
  refine ⟨inside, ?_⟩
  unfold stepWorker at moves
  simp only [if_neg (Nat.not_le.mpr inside)] at moves
  split at moves
  · rename_i here
    obtain rfl := Option.some.inj moves
    exact .enter here
  · rename_i here
    split at moves
    · cases moves
    · rename_i free
      obtain rfl := Option.some.inj moves
      exact .lock here (by simpa using free)
  · rename_i here
    split at moves
    · rename_i stop
      obtain rfl := Option.some.inj moves
      exact .stopped here stop
    · rename_i stop
      obtain rfl := Option.some.inj moves
      exact .goOn here (by simpa using stop)
  · rename_i here
    obtain rfl := Option.some.inj moves
    exact .allocate here
  · rename_i here
    obtain rfl := Option.some.inj moves
    exact .started here
  · rename_i here
    obtain rfl := Option.some.inj moves
    exact .failed (.inl here)
  · rename_i here
    split at moves
    · cases moves
    · rename_i goes
      obtain rfl := Option.some.inj moves
      exact .stop here (by simpa using goes)
  · rename_i here
    split at moves
    · rename_i stop
      obtain rfl := Option.some.inj moves
      exact .last here stop
    · rename_i stop
      split at moves
      · cases moves
      · rename_i more
        obtain rfl := Option.some.inj moves
        exact .hand here (by simpa using stop) more
  · rename_i here
    obtain rfl := Option.some.inj moves
    exact .failed (.inr here)
  · rename_i here
    obtain rfl := Option.some.inj moves
    exact .unlock here
  · rename_i here
    obtain rfl := Option.some.inj moves
    exact .work here
  · rename_i here
    obtain rfl := Option.some.inj moves
    exact .workFailed here
  · rename_i here
    obtain rfl := Option.some.inj moves
    exact .tick here
  · rename_i here
    obtain rfl := Option.some.inj moves
    exact .loop here
  · cases moves

/-- The kinds of steps of the main side. -/
inductive MainStep (call : Call) (pool : VipsThreadpool) : Reply → VipsThreadpool → Prop where
  /-- It takes a tick. -/
  | take (main : MainPoint) (here : pool.main = .wait) (some : 0 < pool.ticks)
      (next : call.version = .pthreads ∧ main = .test ∨
        call.version = .fastFlow ∧ main = if call.progress then .progress else .wait) :
      MainStep call pool .ok { pool with ticks := pool.ticks - 1, main := main }
  /-- It tests stop and error, and goes on. -/
  | test (main : MainPoint) (version : call.version = .pthreads)
      (here : pool.main = .test ∧ (main = .progress ∨ main = .testAgain) ∨
        pool.main = .testAgain ∧ main = .wait)
      (runs : pool.stop = false ∧ pool.error = false) :
      MainStep call pool .ok { pool with main := main }
  /-- It tests stop and error, and leaves its loop. -/
  | leave (version : call.version = .pthreads)
      (here : pool.main = .test ∨ pool.main = .testAgain)
      (over_ : pool.stop = true ∨ pool.error = true) :
      MainStep call pool .ok { pool with main := .finish }
  /-- `progress` has returned. -/
  | progress (here : pool.main = .progress) :
      MainStep call pool .ok { pool with
        main := if call.version = .fastFlow then .wait else .testAgain }
  /-- `progress` has failed. -/
  | failed (here : pool.main = .progress) :
      MainStep call pool .error { pool with
        error := true, failedProgress := true
        main := if call.version = .fastFlow then .wait else .testAgain }
  /-- The workers have ended. -/
  | finish (here : call.version = .fastFlow ∧ pool.main = .wait ∧ pool.ticks = 0 ∨
      call.version = .pthreads ∧ pool.main = .finish)
      (ended : ∀ t < call.nthr, (pool.thr t).point = .ended) :
      MainStep call pool .ok { pool with main := .returned }

/-- A step of the main side is one of these. -/
theorem mainStep_of_step (moves : stepMain call reply pool = some next) :
    MainStep call pool reply next := by
  unfold stepMain at moves
  split at moves
  · rename_i version here
    split at moves
    · rename_i some
      obtain rfl := Option.some.inj moves
      exact .take _ here some (.inr ⟨version, rfl⟩)
    · rename_i none
      split at moves
      · rename_i ended
        obtain rfl := Option.some.inj moves
        exact .finish (.inl ⟨version, here, by omega⟩) (by simpa [allEnded] using ended)
      · cases moves
  · rename_i version here
    obtain rfl := Option.some.inj moves
    have step := @MainStep.progress call pool here
    rwa [if_pos version] at step
  · rename_i version here
    obtain rfl := Option.some.inj moves
    have step := @MainStep.failed call pool here
    rwa [if_pos version] at step
  · rename_i version here
    split at moves
    · rename_i some
      obtain rfl := Option.some.inj moves
      exact .take _ here some (.inl ⟨version, rfl⟩)
    · cases moves
  · rename_i version here
    obtain rfl := Option.some.inj moves
    split
    · rename_i over_
      exact .leave version (.inl here) (by simpa using over_)
    · rename_i runs
      exact .test _ version (.inl ⟨here, by split <;> simp⟩) (by simpa using runs)
  · rename_i version here
    obtain rfl := Option.some.inj moves
    have step := @MainStep.progress call pool here
    rwa [if_neg (by rw [version]; simp)] at step
  · rename_i version here
    obtain rfl := Option.some.inj moves
    have step := @MainStep.failed call pool here
    rwa [if_neg (by rw [version]; simp)] at step
  · rename_i version here
    obtain rfl := Option.some.inj moves
    split
    · rename_i over_
      exact .leave version (.inr here) (by simpa using over_)
    · rename_i runs
      exact .test _ version (.inr ⟨here, rfl⟩) (by simpa using runs)
  · rename_i version here
    split at moves
    · rename_i ended
      obtain rfl := Option.some.inj moves
      exact .finish (.inr ⟨version, here⟩) (by simpa [allEnded] using ended)
    · cases moves
  · cases moves

end VipsThreadpool

end P3arsec.Vips
