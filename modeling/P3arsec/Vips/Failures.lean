import P3arsec.Vips.Units

/-!
# The failures of callbacks in the thread pool

A failure of `progress` is recorded in the pool, which makes the workers leave their loops and is
what the result is read from. A failure of `start`, `allocate` or `work` is recorded in the thread
only: the worker then runs round its loop without a call, the others go on, and the result says
success (`failure_unreported`). The result is right when no such callback fails, or `progress`
fails too. In a run in which none of them fails every worker hands out a unit in each round before
stop, so that the run ends.
-/

namespace P3arsec.Vips

open P3arsec.Lib

/-- A step in which neither `start` nor `allocate` nor `work` fails. -/
def Action.quiet : Action → Bool
  | .worker _ .error => false
  | _ => true

namespace VipsThreadpool

variable {call : Call} {pool next : VipsThreadpool} {t : Nat} {reply : Reply}

/-- A step of a run in which neither `start` nor `allocate` nor `work` fails. -/
def QuietStep (call : Call) (pool next : VipsThreadpool) : Prop :=
  ∃ action : Action, action.quiet = true ∧ act call pool action = some next

/-- The states of the runs in which neither `start` nor `allocate` nor `work` fails. -/
def ReachedQuiet (call : Call) : VipsThreadpool → Prop :=
  Reachable (· = VipsThreadpool.start call) (QuietStep call)

/-- A quiet run is a run. -/
theorem ReachedQuiet.reached (reached : ReachedQuiet call pool) : Reached call pool := by
  induction reached with
  | start begins => exact .start begins
  | step _ moves ih =>
    obtain ⟨action, -, moves⟩ := moves
    exact ih.step ⟨action, moves⟩

/-- The result is read from the failures of `progress`. -/
theorem Reached.error_eq (reached : Reached call pool) : pool.error = pool.failedProgress := by
  apply Reachable.invariant ?_ ?_ reached
  · rintro _ rfl
    rfl
  · rintro pool next same ⟨action, moves⟩
    cases action with
    | worker t reply =>
      have step := (workerStep_of_step moves).2
      cases step <;> exact same
    | main reply =>
      have step := mainStep_of_step moves
      cases step with
      | failed here => rfl
      | take main here some next => exact same
      | test main version here runs => exact same
      | leave version here over_ => exact same
      | progress here => exact same
      | finish here ended => exact same

/-- In a run in which no callback of a worker fails no thread has an error. -/
theorem ReachedQuiet.no_error (reached : ReachedQuiet call pool) :
    pool.failedWorker = false ∧ ∀ t < call.nthr, (pool.thr t).error = false := by
  apply Reachable.invariant ?_ ?_ reached
  · rintro _ rfl
    exact ⟨rfl, fun t inside => rfl⟩
  · rintro pool next ⟨none, noError⟩ ⟨action, quiet, moves⟩
    have kept : ∀ t < call.nthr, ∀ worker : VipsThread,
        worker.error = (pool.thr t).error → ∀ t' < call.nthr,
        (Function.update pool.thr t worker t').error = false := by
      intro t inside worker same t' inside'
      rw [Function.update_apply]
      split
      · rw [same]
        exact noError t inside
      · exact noError t' inside'
    cases action with
    | worker t reply =>
      obtain ⟨inside, step⟩ := workerStep_of_step moves
      cases step with
      | failed here => cases quiet
      | workFailed here => cases quiet
      | stop here goes => exact ⟨none, noError⟩
      | enter here => exact ⟨none, kept t inside _ rfl⟩
      | lock here free => exact ⟨none, kept t inside _ rfl⟩
      | stopped here stop => exact ⟨none, kept t inside _ rfl⟩
      | goOn here stop => exact ⟨none, kept t inside _ rfl⟩
      | allocate here => exact ⟨none, kept t inside _ rfl⟩
      | started here => exact ⟨none, kept t inside _ rfl⟩
      | last here stop => exact ⟨none, kept t inside _ rfl⟩
      | hand here stop some => exact ⟨none, kept t inside _ rfl⟩
      | unlock here => exact ⟨none, kept t inside _ rfl⟩
      | work here => exact ⟨none, kept t inside _ rfl⟩
      | tick here => exact ⟨none, kept t inside _ rfl⟩
      | loop here => exact ⟨none, kept t inside _ rfl⟩
    | main reply =>
      have step := mainStep_of_step moves
      cases step <;> exact ⟨none, noError⟩

/-- What the main side and the workers that have ended know of stop and error. -/
structure TickInv (call : Call) (pool : VipsThreadpool) : Prop where
  /-- A worker ends when it has seen stop or an error. -/
  ended : ∀ t < call.nthr, (pool.thr t).point = .ended → pool.stop = true ∨ pool.error = true
  /-- The collector makes no tests. -/
  collector : call.version = .fastFlow →
    pool.main = .wait ∨ pool.main = .progress ∨ pool.main = .returned
  /-- The main thread does not wait for a tick after an error. -/
  noError : call.version = .pthreads →
    pool.main = .wait ∨ pool.main = .test ∨ pool.main = .progress → pool.error = false
  /-- When stop is set while the main thread waits for a tick, there is one or a worker is still
  to give one. -/
  wakes : call.version = .pthreads → pool.main = .wait → pool.stop = true →
    0 < pool.ticks ∨ ∃ t < call.nthr, (pool.thr t).point ≠ .loopTest ∧ (pool.thr t).point ≠ .ended

namespace TickInv

/-- A change of a worker, where it neither ticks nor sets stop. -/
theorem keep (inv : TickInv call pool) {worker : VipsThread}
    (thr : next.thr = Function.update pool.thr t worker)
    (same : next.stop = pool.stop ∧ next.error = pool.error ∧ next.main = pool.main ∧
      next.ticks = pool.ticks)
    (ended : worker.point = .ended → pool.stop = true ∨ pool.error = true)
    (wakes : worker.point = .loopTest ∨ worker.point = .ended →
      (pool.thr t).point = .loopTest) : TickInv call next := by
  obtain ⟨stop, error, main, ticks⟩ := same
  exact {
    ended := fun t' inside gone => by
      rw [stop, error]
      rw [thr, Function.update_apply] at gone
      split at gone
      · exact ended gone
      · exact inv.ended t' inside gone
    collector := by
      rw [main]
      exact inv.collector
    noError := by
      rw [main, error]
      exact inv.noError
    wakes := fun version waits stopped => by
      rw [main] at waits
      rw [stop] at stopped
      rw [ticks]
      refine (inv.wakes version waits stopped).imp_right ?_
      rintro ⟨t', inside, notLoop, notEnded⟩
      refine ⟨t', inside, ?_⟩
      rw [thr, Function.update_apply]
      split
      · rename_i here
        rw [here] at notLoop
        exact ⟨fun loops => notLoop (wakes (.inl loops)), fun gone => notLoop (wakes (.inr gone))⟩
      · exact ⟨notLoop, notEnded⟩ }

/-- A step of a worker keeps the ticks coming. -/
theorem stepWorker (inv : TickInv call pool) (inside : t < call.nthr)
    (moves : WorkerStep t pool reply next) : TickInv call next := by
  cases moves with
  | enter here =>
    refine inv.keep rfl ⟨rfl, rfl, rfl, rfl⟩ ?_ ?_ <;> dsimp only <;> split <;> simp
  | lock here free => exact inv.keep rfl ⟨rfl, rfl, rfl, rfl⟩ (by simp) (by simp)
  | stopped here stop => exact inv.keep rfl ⟨rfl, rfl, rfl, rfl⟩ (by simp) (by simp)
  | goOn here stop => exact inv.keep rfl ⟨rfl, rfl, rfl, rfl⟩ (by simp) (by simp)
  | allocate here =>
    refine inv.keep rfl ⟨rfl, rfl, rfl, rfl⟩ ?_ ?_ <;> dsimp only <;> split <;> simp
  | started here => exact inv.keep rfl ⟨rfl, rfl, rfl, rfl⟩ (by simp) (by simp)
  | failed here => exact inv.keep rfl ⟨rfl, rfl, rfl, rfl⟩ (by simp) (by simp)
  | stop here goes =>
    refine ⟨fun _ _ _ => .inl rfl, inv.collector, inv.noError, fun _ _ _ => .inr ⟨t, inside, ?_⟩⟩
    show (pool.thr t).point ≠ .loopTest ∧ (pool.thr t).point ≠ .ended
    rw [here]
    simp
  | last here stop => exact inv.keep rfl ⟨rfl, rfl, rfl, rfl⟩ (by simp) (by simp)
  | hand here stop some => exact inv.keep rfl ⟨rfl, rfl, rfl, rfl⟩ (by simp) (by simp)
  | unlock here =>
    refine inv.keep rfl ⟨rfl, rfl, rfl, rfl⟩ ?_ ?_ <;> dsimp only <;> split <;> simp
  | work here => exact inv.keep rfl ⟨rfl, rfl, rfl, rfl⟩ (by simp) (by simp)
  | workFailed here => exact inv.keep rfl ⟨rfl, rfl, rfl, rfl⟩ (by simp) (by simp)
  | tick here =>
    refine ⟨fun t' inside' gone => ?_, inv.collector, inv.noError,
      fun _ _ _ => .inl (Nat.succ_pos _)⟩
    rw [thr_setThr] at gone
    split at gone
    · cases gone
    · exact inv.ended t' inside' gone
  | loop here =>
    refine inv.keep rfl ⟨rfl, rfl, rfl, rfl⟩ ?_ fun _ => here
    dsimp only
    split
    · rename_i over_
      exact fun _ => by simpa using over_
    · simp

/-- A step of the main side. -/
theorem stepMain (inv : TickInv call pool) (moves : MainStep call pool reply next) :
    TickInv call next := by
  cases moves with
  | take main here some next =>
    refine ⟨inv.ended, fun version => ?_, fun version _ => inv.noError version (.inl here),
      fun version waits => ?_⟩
    · rcases next with ⟨other, -⟩ | ⟨-, same⟩
      · rw [version] at other
        cases other
      · show main = _ ∨ main = _ ∨ main = _
        rw [same]
        split <;> simp
    · rcases next with ⟨-, same⟩ | ⟨other, -⟩
      · rw [same] at waits
        cases waits
      · rw [version] at other
        cases other
  | test main version here runs =>
    refine ⟨inv.ended, fun other => ?_, fun _ _ => runs.2, fun _ _ stop => ?_⟩
    · rw [version] at other
      cases other
    · exact absurd (runs.1.symm.trans stop) (by simp)
  | leave version here over_ =>
    refine ⟨inv.ended, fun other => ?_, fun _ at_ => ?_, fun _ waits => by cases waits⟩
    · rw [version] at other
      cases other
    · rcases at_ with at_ | at_ | at_ <;> cases at_
  | progress here =>
    refine ⟨inv.ended, fun version => ?_, fun version at_ => ?_, fun version waits => ?_⟩
    · exact .inl (if_pos version)
    · exact inv.noError version (.inr (.inr here))
    · rw [version] at waits
      cases waits
  | failed here =>
    refine ⟨fun _ _ _ => .inr rfl, fun version => ?_, fun version at_ => ?_,
      fun version waits => ?_⟩
    · exact .inl (if_pos version)
    · rw [version] at at_
      rcases at_ with at_ | at_ | at_ <;> cases at_
    · rw [version] at waits
      cases waits
  | finish here ended =>
    refine ⟨inv.ended, fun _ => .inr (.inr rfl), fun _ at_ => ?_, fun _ waits => by cases waits⟩
    rcases at_ with at_ | at_ | at_ <;> cases at_

end TickInv

/-- The ticks come in every reachable state. -/
theorem Reached.tickInv (reached : Reached call pool) : TickInv call pool := by
  apply Reachable.invariant ?_ ?_ reached
  · rintro _ rfl
    exact ⟨fun _ _ gone => (by cases gone), fun _ => .inl rfl, fun _ _ => rfl,
      fun _ _ stop => (by cases stop)⟩
  · rintro pool next inv ⟨action, moves⟩
    cases action with
    | worker t reply =>
      obtain ⟨inside, step⟩ := workerStep_of_step moves
      exact inv.stepWorker inside step
    | main reply => exact inv.stepMain (mainStep_of_step moves)

/-- A quiet action is a quiet step. -/
theorem moves_of_isSome (action : Action) (quiet : action.quiet = true)
    (some : (act call pool action).isSome = true) : ∃ next, QuietStep call pool next := by
  obtain ⟨next, moves⟩ := Option.isSome_iff_exists.mp some
  exact ⟨next, action, quiet, moves⟩

/-- A worker that has not ended has a step, unless it waits for the lock. -/
theorem worker_moves (inside : t < call.nthr) (running : (pool.thr t).point ≠ .ended)
    (free : (pool.thr t).point = .lock → pool.allocateLock = none) :
    ∃ next, QuietStep call pool next := by
  have here : ¬call.nthr ≤ t := Nat.not_le.mpr inside
  cases point : (pool.thr t).point with
  | allocating =>
    cases stop : pool.stop with
    | true =>
      exact moves_of_isSome (.worker t .ok) rfl (by simp [act, stepWorker, here, point, stop])
    | false =>
      exact moves_of_isSome (.worker t .stop) rfl (by simp [act, stepWorker, here, point, stop])
  | lock =>
    exact moves_of_isSome (.worker t .ok) rfl (by simp [act, stepWorker, here, point, free point])
  | stopTest =>
    cases stop : pool.stop with
    | true =>
      exact moves_of_isSome (.worker t .ok) rfl (by simp [act, stepWorker, here, point, stop])
    | false =>
      exact moves_of_isSome (.worker t .ok) rfl (by simp [act, stepWorker, here, point, stop])
  | ended => exact absurd point running
  | _ => exact moves_of_isSome (.worker t .ok) rfl (by simp [act, stepWorker, here, point])

/-- The main side has a step when all workers have ended, until it returns. -/
theorem main_moves (inv : TickInv call pool)
    (ended : ∀ t < call.nthr, (pool.thr t).point = .ended) (runs : pool.main ≠ .returned) :
    ∃ next, QuietStep call pool next := by
  have all : pool.allEnded call = true := by
    simpa [allEnded] using ended
  cases version : call.version with
  | fastFlow =>
    rcases inv.collector version with here | here | here
    · by_cases some : 0 < pool.ticks
      · exact moves_of_isSome (.main .ok) rfl (by simp [act, stepMain, version, here, some])
      · exact moves_of_isSome (.main .ok) rfl (by simp [act, stepMain, version, here, some, all])
    · exact moves_of_isSome (.main .ok) rfl (by simp [act, stepMain, version, here])
    · exact absurd here runs
  | pthreads =>
    cases here : pool.main with
    | wait =>
      -- the workers have seen stop, and the last one has ticked after that
      have stop : pool.stop = true := by
        have seen := inv.ended 0 call.nthr_pos (ended 0 call.nthr_pos)
        rw [inv.noError version (.inl here)] at seen
        simpa using seen
      rcases inv.wakes version here stop with some | ⟨t, inside, -, notEnded⟩
      · exact moves_of_isSome (.main .ok) rfl (by simp [act, stepMain, version, here, some])
      · exact absurd (ended t inside) notEnded
    | finish => exact moves_of_isSome (.main .ok) rfl (by simp [act, stepMain, version, here, all])
    | returned => exact absurd here runs
    | _ => exact moves_of_isSome (.main .ok) rfl (by simp [act, stepMain, version, here])

/-- In every reachable state some thread has a step, until `vips_threadpool_run` returns. -/
theorem returned_or_moves (reached : Reached call pool) :
    pool.main = .returned ∨ ∃ next, QuietStep call pool next := by
  by_cases runs : pool.main = .returned
  · exact .inl runs
  refine .inr ?_
  by_cases ended : ∀ t < call.nthr, (pool.thr t).point = .ended
  · exact main_moves reached.tickInv ended runs
  · push Not at ended
    obtain ⟨t, inside, running⟩ := ended
    have owned := reached.inv.1.owned
    cases lock : pool.allocateLock with
    | none => exact worker_moves inside running fun _ => lock
    | some owner =>
      -- the worker that has the lock goes on
      obtain ⟨inside', locked⟩ := (owned owner).mp lock
      refine worker_moves inside' ?_ ?_ <;> intro here <;> rw [here] at locked <;> cases locked

/-- The steps that a worker has left in its round. When it is handed a unit the round is longer by
less than the unit counts. -/
def rank : Bool → Point → Nat
  | false, .handed => 12
  | false, .work => 11
  | false, .tick => 10
  | false, .loopTest => 9
  | false, .entry => 8
  | false, .lock => 7
  | false, .stopTest => 6
  | false, .allocate => 5
  | false, .start => 4
  | false, .allocating => 3
  | true, .allocate => 9
  | true, .start => 8
  | true, .allocating => 7
  | true, .entry => 6
  | true, .lock => 5
  | true, .stopTest => 4
  | true, .handed => 4
  | true, .work => 3
  | true, .tick => 2
  | true, .loopTest => 1
  | _, .ended => 0

/-- The steps that the main side has left before the next tick. -/
def mainRank : MainPoint → Nat
  | .test => 5
  | .progress => 4
  | .testAgain => 3
  | .wait => 2
  | .finish => 1
  | .returned => 0

/-- What the workers have still to do. -/
def workLeft (call : Call) (pool : VipsThreadpool) : Nat :=
  10 * pool.left + (if pool.stop then 0 else 5 * call.nthr) +
    ∑ t ∈ Finset.range call.nthr, rank pool.stop (pool.thr t).point

/-- What the main side has still to do for the ticks that there are. -/
def mainLeft (pool : VipsThreadpool) : Nat := 4 * pool.ticks + mainRank pool.main

/-- The work left after a change of a worker. -/
theorem workLeft_lt (inside : t < call.nthr) {worker : VipsThread}
    (thr : next.thr = Function.update pool.thr t worker) (stop : next.stop = pool.stop)
    (lower : 10 * next.left + rank pool.stop worker.point <
      10 * pool.left + rank pool.stop (pool.thr t).point) :
    workLeft call next < workLeft call pool := by
  have sum := sum_range_update (fun thr : VipsThread => rank pool.stop thr.point) pool.thr worker
    inside
  rw [workLeft, workLeft, thr, stop]
  omega

/-- A step of a worker leaves less work, and makes at most one tick. -/
theorem WorkerStep.lowers (inside : t < call.nthr) (moves : WorkerStep t pool reply next)
    (noError : (pool.thr t).error = false) (quiet : reply ≠ .error) :
    workLeft call next < workLeft call pool ∧ mainLeft next ≤ mainLeft pool + 4 := by
  have same : mainLeft pool ≤ mainLeft pool + 4 := Nat.le_add_right _ _
  cases moves with
  | enter here =>
    refine ⟨workLeft_lt inside rfl rfl (Nat.add_lt_add_left ?_ _), same⟩
    rw [here, noError]
    dsimp only
    cases pool.stop <;> decide
  | lock here free =>
    refine ⟨workLeft_lt inside rfl rfl (Nat.add_lt_add_left ?_ _), same⟩
    rw [here]
    dsimp only
    cases pool.stop <;> decide
  | stopped here stop =>
    refine ⟨workLeft_lt inside rfl rfl (Nat.add_lt_add_left ?_ _), same⟩
    rw [here, stop]
    dsimp only
    decide
  | goOn here stop =>
    refine ⟨workLeft_lt inside rfl rfl (Nat.add_lt_add_left ?_ _), same⟩
    rw [here, stop]
    dsimp only
    decide
  | allocate here =>
    refine ⟨workLeft_lt inside rfl rfl (Nat.add_lt_add_left ?_ _), same⟩
    rw [here]
    dsimp only
    cases pool.stop <;> cases (pool.thr t).state.isNone <;> decide
  | started here =>
    refine ⟨workLeft_lt inside rfl rfl (Nat.add_lt_add_left ?_ _), same⟩
    rw [here]
    dsimp only
    cases pool.stop <;> decide
  | failed here => exact absurd rfl quiet
  | stop here goes =>
    -- every worker may now be a few steps further from its end
    have ranks : ∑ t ∈ Finset.range call.nthr, rank true (pool.thr t).point ≤
        ∑ t ∈ Finset.range call.nthr, (rank false (pool.thr t).point + 4) := by
      apply Finset.sum_le_sum
      intro t' _
      cases (pool.thr t').point <;> decide
    rw [Finset.sum_add_distrib, Finset.sum_const, Finset.card_range, smul_eq_mul] at ranks
    have positive := call.nthr_pos
    refine ⟨?_, same⟩
    unfold workLeft
    simp only [goes, if_true]
    simp only [Bool.false_eq_true, if_false]
    omega
  | last here stop =>
    refine ⟨workLeft_lt inside rfl rfl (Nat.add_lt_add_left ?_ _), same⟩
    rw [here, stop]
    dsimp only
    decide
  | hand here stop some =>
    refine ⟨workLeft_lt inside rfl rfl ?_, same⟩
    have ranks : rank false Point.handed = 12 ∧ rank false Point.allocating = 3 := by
      decide
    show 10 * (pool.left - 1) + _ < _
    rw [here, stop]
    dsimp only
    omega
  | unlock here =>
    refine ⟨workLeft_lt inside rfl rfl (Nat.add_lt_add_left ?_ _), same⟩
    rw [here]
    dsimp only
    cases pool.stop <;> decide
  | work here =>
    refine ⟨workLeft_lt inside rfl rfl (Nat.add_lt_add_left ?_ _), same⟩
    rw [here]
    dsimp only
    cases pool.stop <;> decide
  | workFailed here => exact absurd rfl quiet
  | tick here =>
    refine ⟨workLeft_lt inside rfl rfl (Nat.add_lt_add_left ?_ _), ?_⟩
    · rw [here]
      dsimp only
      cases pool.stop <;> decide
    · show 4 * (pool.ticks + 1) + mainRank pool.main ≤ 4 * pool.ticks + mainRank pool.main + 4
      omega
  | loop here =>
    refine ⟨workLeft_lt inside rfl rfl (Nat.add_lt_add_left ?_ _), same⟩
    rw [here]
    dsimp only
    cases pool.stop <;> cases pool.error <;> decide

/-- A step of the main side leaves the work as it is and gets on with the ticks. -/
theorem MainStep.lowers (moves : MainStep call pool reply next) :
    workLeft call next = workLeft call pool ∧ mainLeft next < mainLeft pool := by
  cases moves with
  | take main here some next =>
    refine ⟨rfl, ?_⟩
    have high : mainRank main ≤ 5 := by
      cases main <;> decide
    have low : mainRank pool.main = 2 := by
      rw [here]
      rfl
    show 4 * (pool.ticks - 1) + mainRank main < 4 * pool.ticks + mainRank pool.main
    omega
  | test main version here runs =>
    refine ⟨rfl, Nat.add_lt_add_left ?_ _⟩
    rcases here with ⟨here, same | same⟩ | ⟨here, same⟩ <;> rw [here, same] <;> dsimp only <;>
      decide
  | leave version here over_ =>
    refine ⟨rfl, Nat.add_lt_add_left ?_ _⟩
    rcases here with here | here <;> rw [here] <;> dsimp only <;> decide
  | progress here =>
    refine ⟨rfl, Nat.add_lt_add_left ?_ _⟩
    rw [here]
    dsimp only
    split <;> decide
  | failed here =>
    refine ⟨rfl, Nat.add_lt_add_left ?_ _⟩
    rw [here]
    dsimp only
    split <;> decide
  | finish here ended =>
    refine ⟨rfl, Nat.add_lt_add_left ?_ _⟩
    rcases here with ⟨-, here, -⟩ | ⟨-, here⟩ <;> rw [here] <;> dsimp only <;> decide

/-- A run in which no callback of a worker fails gets on with every step. -/
theorem QuietStep.lowers (reached : ReachedQuiet call pool) (moves : QuietStep call pool next) :
    10 * workLeft call next + mainLeft next < 10 * workLeft call pool + mainLeft pool := by
  obtain ⟨action, quiet, moves⟩ := moves
  cases action with
  | worker t reply =>
    obtain ⟨inside, step⟩ := workerStep_of_step moves
    have noError := reached.no_error.2 t inside
    have lowers := step.lowers inside noError (by rintro rfl; cases quiet)
    omega
  | main reply =>
    have lowers := (mainStep_of_step moves).lowers
    omega

/-- What `vips_threadpool_run` returns is right exactly when a call of `progress` has failed or no
call of `start`, `allocate` or `work` has. In the runs in which none of these fails, no run goes on
forever or comes to a halt before it returns, and the result that it is going to return tells of
the failures so far. -/
theorem failures_reported (call : Call) :
    (∀ pool, Reached call pool → pool.main = .returned →
      ((result pool = -1 ↔ Failed pool) ↔
        (pool.failedProgress = true ∨ pool.failedWorker = false))) ∧
    (¬∃ run : Nat → VipsThreadpool, run 0 = VipsThreadpool.start call ∧
      ∀ i, QuietStep call (run i) (run (i + 1))) ∧
    ∀ pool, ReachedQuiet call pool →
      (pool.main = .returned ∨ ∃ next, QuietStep call pool next) ∧
      (result pool = -1 ↔ Failed pool) := by
  have results : ∀ pool, Reached call pool → (result pool = -1 ↔ pool.failedProgress = true) := by
    intro pool reached
    rw [result, reached.error_eq]
    cases pool.failedProgress <;> simp
  refine ⟨fun pool reached _ => ?_, ?_, fun pool reached => ⟨?_, ?_⟩⟩
  · rw [results pool reached, Failed]
    cases pool.failedProgress <;> cases pool.failedWorker <;> simp
  · exact Reachable.no_infinite_run (fun pool => 10 * workLeft call pool + mainLeft pool)
      fun pool next reached moves => QuietStep.lowers reached moves
  · exact returned_or_moves reached.reached
  · rw [results pool reached.reached, Failed, reached.no_error.1]
    simp

/-- Two workers and one work unit, without `progress`. -/
def torn (version : Version) : Call := ⟨version, 2, Nat.two_pos, 1, false⟩

/-- A run in which `work` fails in the first worker and the second one finds no more work. -/
def tornRun : List Action :=
  [(7, .worker 0 .ok), (1, .worker 0 .error), (5, .worker 1 .ok), (1, .worker 1 .stop),
    (4, .worker 1 .ok), (2, .worker 0 .ok), (3, .main .ok)].flatMap fun entry =>
      List.replicate entry.1 entry.2

/-- The actions are a run with the threads of FastFlow. -/
theorem torn_run_fastFlow :
    (acts (torn .fastFlow) (VipsThreadpool.start (torn .fastFlow)) tornRun).isSome = true := by
  decide

/-- The actions are a run with pthreads. -/
theorem torn_run_pthreads :
    (acts (torn .pthreads) (VipsThreadpool.start (torn .pthreads)) tornRun).isSome = true := by
  decide

/-- In both versions a failure of `work` is reported as success. -/
theorem failure_unreported :
    (∃ pool, Reached (torn .fastFlow) pool ∧ pool.main = .returned ∧ Failed pool ∧
      result pool = 0) ∧
    ∃ pool, Reached (torn .pthreads) pool ∧ pool.main = .returned ∧ Failed pool ∧
      result pool = 0 := by
  have farm := Option.some_get torn_run_fastFlow
  have threads := Option.some_get torn_run_pthreads
  exact ⟨⟨_, Reached.acts (.start rfl) farm.symm, by decide, .inl (by decide), by decide⟩,
    ⟨_, Reached.acts (.start rfl) threads.symm, by decide, .inl (by decide), by decide⟩⟩

end VipsThreadpool

end P3arsec.Vips
