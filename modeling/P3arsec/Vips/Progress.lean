import P3arsec.Vips.Failures

/-!
# The calls of `progress`

The collector of the farm calls `progress` for every tick, and a worker ticks after every turn. A
turn ends empty when the worker has failed before, when it sees stop, or when `start` or `allocate`
fails: it ticks although it has processed nothing. So `progress` is called once for every unit and
once more for every empty turn, and the turn in which stop is set is empty.
-/

namespace P3arsec.Vips

open P3arsec.Lib

/-- The tick that a worker has still to give. -/
def VipsThread.tickDue (thr : VipsThread) : Nat := (decide (thr.point = .tick)).toNat

namespace VipsThreadpool

/-- The step calls `progress`. -/
def callsProgress (pool : VipsThreadpool) : Action → Bool
  | .main _ => pool.main = .progress
  | .worker _ _ => false

/-- The step ends a turn of a worker in which it has not worked on a unit. -/
def endsEmpty (pool next : VipsThreadpool) : Action → Bool
  | .worker t _ => (next.thr t).point = .tick ∧ (pool.thr t).point ≠ .work
  | .main _ => false

/-- A pool with a record of the calls of `progress` and of the empty turns. -/
structure Tally where
  /-- The pool. -/
  pool : VipsThreadpool
  /-- The number of calls of `progress`. -/
  progressCalls : Nat
  /-- The number of turns that have ended without work. -/
  emptyTurns : Nat

/-- One step with the record. -/
def tallyAct (call : Call) (tally : Tally) (action : Action) : Option Tally :=
  (act call tally.pool action).map fun next =>
    { pool := next
      progressCalls := tally.progressCalls + (tally.pool.callsProgress action).toNat
      emptyTurns := tally.emptyTurns + (tally.pool.endsEmpty next action).toNat }

/-- The states of all interleavings, with their records. -/
def Tallied (call : Call) : Tally → Prop :=
  Reachable (· = ⟨VipsThreadpool.start call, 0, 0⟩)
    fun tally next => ∃ action, tallyAct call tally action = some next

/-- `progress` has been called for no more than the units that were processed, and for each of them
when the pool has returned. -/
def OncePerUnit (tally : Tally) : Prop :=
  tally.progressCalls ≤ tally.pool.worked.length ∧
    (tally.pool.main = .returned → tally.progressCalls = tally.pool.worked.length)

variable {call : Call} {pool next : VipsThreadpool} {t : Nat} {reply : Reply}

/-- A tallied run is a run. -/
theorem Tallied.reached {tally : Tally} (tallied : Tallied call tally) :
    Reached call tally.pool := by
  induction tallied with
  | start begins =>
    rw [begins]
    exact .start rfl
  | step _ moves ih =>
    obtain ⟨action, moves⟩ := moves
    obtain ⟨pool, acted, rfl⟩ := Option.map_eq_some_iff.mp moves
    exact ih.step ⟨action, acted⟩

/-- The call of `progress` that the main side is in. -/
def progressDue (pool : VipsThreadpool) : Nat := (decide (pool.main = .progress)).toNat

/-- What one step of a worker changes: it gives a tick, or it ends a turn and has a tick to give. -/
theorem WorkerStep.counts (moves : WorkerStep t pool reply next) :
    ∃ worker, next.thr = Function.update pool.thr t worker ∧
      next.ticks + worker.tickDue + pool.worked.length =
        pool.ticks + (pool.thr t).tickDue + next.worked.length +
          (pool.endsEmpty next (.worker t reply)).toNat := by
  cases moves with
  | stop here goes =>
    refine ⟨pool.thr t, (Function.update_eq_self t pool.thr).symm, ?_⟩
    simp [endsEmpty, here]
  | enter here =>
    refine ⟨_, rfl, ?_⟩
    cases failed : (pool.thr t).error
    · simp [endsEmpty, VipsThread.tickDue, here, failed, setThr]
    · simp [endsEmpty, VipsThread.tickDue, here, failed, setThr, Nat.add_right_comm]
  | stopped here =>
    refine ⟨_, rfl, ?_⟩
    simp [endsEmpty, VipsThread.tickDue, here, setThr, Nat.add_right_comm]
  | allocate here =>
    refine ⟨_, rfl, ?_⟩
    cases made : (pool.thr t).state
    · simp [endsEmpty, VipsThread.tickDue, here, made, setThr]
    · simp [endsEmpty, VipsThread.tickDue, here, made, setThr]
  | failed here =>
    refine ⟨_, rfl, ?_⟩
    rcases here with here | here
    · simp [endsEmpty, VipsThread.tickDue, here, setThr, Nat.add_right_comm]
    · simp [endsEmpty, VipsThread.tickDue, here, setThr, Nat.add_right_comm]
  | unlock here =>
    refine ⟨_, rfl, ?_⟩
    cases stop : pool.stop
    · simp [endsEmpty, VipsThread.tickDue, here, setThr]
    · simp [endsEmpty, VipsThread.tickDue, here, setThr, Nat.add_right_comm]
  | work here | workFailed here =>
    refine ⟨_, rfl, ?_⟩
    simp [endsEmpty, VipsThread.tickDue, here, setThr]
    omega
  | loop here =>
    refine ⟨_, rfl, ?_⟩
    simp [endsEmpty, VipsThread.tickDue, here, setThr]
    omega
  | lock here | goOn here | started here | last here | hand here | tick here =>
    refine ⟨_, rfl, ?_⟩
    simp [endsEmpty, VipsThread.tickDue, here, setThr]

/-- Some worker has called `allocate` and not yet looked whether it has signalled stop. -/
def Leaving (call : Call) (pool : VipsThreadpool) : Prop :=
  ∃ t < call.nthr, (pool.thr t).point = .allocating ∨ (pool.thr t).point = .handed

/-- A step of another worker, or one that stays between the two points. -/
theorem Leaving.keep (leaving : Leaving call pool) {worker : VipsThread}
    (thr : next.thr = Function.update pool.thr t worker)
    (own : (pool.thr t).point = .allocating ∨ (pool.thr t).point = .handed →
      worker.point = .allocating ∨ worker.point = .handed) : Leaving call next := by
  obtain ⟨t', inside, here⟩ := leaving
  refine ⟨t', inside, ?_⟩
  rw [thr, Function.update_apply]
  split
  · rename_i same
    rw [same] at here
    exact own here
  · exact here

/-- The worker that has set stop is on the way to the end of its turn, which is empty. -/
theorem WorkerStep.leaves (inside : t < call.nthr) (moves : WorkerStep t pool reply next)
    (leaving : pool.stop = true → Leaving call pool) (stop : next.stop = true) :
    pool.endsEmpty next (.worker t reply) = true ∨ Leaving call next := by
  cases moves with
  | stop here goes => exact .inr ⟨t, inside, .inl here⟩
  | enter here | lock here | stopped here | goOn here | allocate here | started here | work here
  | workFailed here | tick here | loop here =>
    refine .inr ((leaving stop).keep rfl ?_)
    rw [here]
    exact fun own => by rcases own with own | own <;> cases own
  | failed here => exact .inl (by rcases here with here | here <;> simp [endsEmpty, here])
  | last here => exact .inr ((leaving stop).keep rfl fun _ => .inr rfl)
  | hand here goes => exact absurd (goes.symm.trans stop) (by decide)
  | unlock here =>
    have stopped : pool.stop = true := stop
    exact .inl (by simp [endsEmpty, here, stopped])

/-- What one step of the main side of the farm changes: it takes a tick and calls `progress`. -/
theorem MainStep.counts (farm : call.version = .fastFlow) (given : call.progress = true)
    (moves : MainStep call pool reply next) :
    next.thr = pool.thr ∧ next.stop = pool.stop ∧ next.worked = pool.worked ∧
      next.ticks + next.progressDue + (pool.callsProgress (.main reply)).toNat =
        pool.ticks + pool.progressDue ∧
      (next.main = .returned → next.ticks = 0) := by
  cases moves with
  | take main here some next =>
    rcases next with ⟨version, -⟩ | ⟨-, rfl⟩
    · rw [farm] at version
      exact nomatch version
    · refine ⟨rfl, rfl, rfl, ?_, ?_⟩
      · simp only [progressDue, callsProgress, given, here]
        simp
        omega
      · simp [given]
  | test main version | leave version =>
    rw [farm] at version
    exact nomatch version
  | progress here | failed here =>
    refine ⟨rfl, rfl, rfl, ?_, ?_⟩
    · simp [progressDue, callsProgress, farm, here]
    · simp [farm]
  | finish here ended =>
    rcases here with ⟨-, here, none⟩ | ⟨version, -⟩
    · refine ⟨rfl, rfl, rfl, ?_, fun _ => none⟩
      simp [progressDue, callsProgress, here]
    · rw [farm] at version
      exact nomatch version

/-- What holds in every state of the farm: a call of `progress` that has been made or is due for
each turn that has ended, and an empty turn when stop has been set. -/
structure ProgressInv (call : Call) (tally : Tally) : Prop where
  /-- Each turn that has ended has its call, its tick, or a worker that is to tick. -/
  balance : tally.progressCalls + tally.pool.ticks + tally.pool.progressDue +
    ∑ t ∈ Finset.range call.nthr, (tally.pool.thr t).tickDue =
      tally.pool.worked.length + tally.emptyTurns
  /-- No tick is left when the pool has returned. -/
  quiet : tally.pool.main = .returned → tally.pool.ticks = 0
  /-- Stop was set in an empty turn. -/
  stopped : tally.pool.stop = true → 0 < tally.emptyTurns ∨ Leaving call tally.pool

/-- The balance is kept by every step. -/
theorem Tallied.inv (farm : call.version = .fastFlow) (given : call.progress = true) {tally : Tally}
    (tallied : Tallied call tally) : ProgressInv call tally := by
  induction tallied with
  | start begins =>
    rw [begins]
    refine ⟨?_, fun _ => rfl, fun stop => nomatch stop⟩
    simp [VipsThreadpool.start, progressDue, VipsThread.tickDue]
  | @step tally _ tallied moves inv =>
    obtain ⟨action, moves⟩ := moves
    obtain ⟨next, acted, rfl⟩ := Option.map_eq_some_iff.mp moves
    have balance := inv.balance
    cases action with
    | worker t reply =>
      obtain ⟨inside, step⟩ := workerStep_of_step acted
      obtain ⟨worker, thr, counts⟩ := step.counts
      have sum := sum_range_update VipsThread.tickDue tally.pool.thr worker inside
      rw [← thr] at sum
      refine ⟨?_, fun returned => ?_, fun stop => ?_⟩
      · have due : next.progressDue = tally.pool.progressDue := by
          rw [progressDue, progressDue, step.main]
        simp only [callsProgress, due]
        simp only [Bool.toNat_false]
        omega
      · rw [step.main] at returned
        have ended := (Tallied.reached tallied).inv.2.2 returned t inside
        exact absurd ended step.running
      · by_cases earlier : 0 < tally.emptyTurns
        · exact .inl (Nat.add_pos_left earlier _)
        · refine (step.leaves inside (fun stop => (inv.stopped stop).resolve_left earlier)
            stop).imp_left fun ends => ?_
          rw [ends]
          exact Nat.succ_pos _
    | main reply =>
      obtain ⟨thr, stop, worked, counts, quiet⟩ :=
        (mainStep_of_step acted).counts farm given
      refine ⟨?_, quiet, fun stopped => ?_⟩
      · simp only [endsEmpty, thr, worked]
        simp only [Bool.toNat_false]
        omega
      · rw [stop] at stopped
        have earlier := inv.stopped stopped
        unfold Leaving at earlier ⊢
        rw [thr]
        exact earlier

/-- The farm calls `progress` once for each unit in a run without empty turns. In a run that has
returned that is also necessary, and when stop has been set there was an empty turn. -/
theorem progress_iff (farm : call.version = .fastFlow) (given : call.progress = true)
    {tally : Tally} (tallied : Tallied call tally) :
    (tally.emptyTurns = 0 → OncePerUnit tally) ∧
      (tally.pool.main = .returned → (OncePerUnit tally ↔ tally.emptyTurns = 0)) ∧
      (tally.pool.main = .returned → tally.pool.stop = true → ¬OncePerUnit tally) := by
  have inv := tallied.inv farm given
  have balance := inv.balance
  have calls : tally.pool.main = .returned →
      tally.progressCalls = tally.pool.worked.length + tally.emptyTurns := by
    intro returned
    have quiet := inv.quiet returned
    have ended := tallied.reached.inv.2.2 returned
    have none : ∑ t ∈ Finset.range call.nthr, (tally.pool.thr t).tickDue = 0 := by
      refine Finset.sum_eq_zero fun t member => ?_
      simp [VipsThread.tickDue, ended t (Finset.mem_range.mp member)]
    have due : tally.pool.progressDue = 0 := by
      simp [progressDue, returned]
    omega
  have exactly : tally.pool.main = .returned → (OncePerUnit tally ↔ tally.emptyTurns = 0) := by
    intro returned
    have total := calls returned
    unfold OncePerUnit
    constructor
    · intro ⟨few, _⟩
      omega
    · intro none
      exact ⟨by omega, fun _ => by omega⟩
  refine ⟨fun none => ⟨by omega, fun returned => ?_⟩, exactly, fun returned stop once => ?_⟩
  · have total := calls returned
    omega
  · have none := (exactly returned).mp once
    rcases inv.stopped stop with some | ⟨t, inside, here⟩
    · omega
    · have ended := tallied.reached.inv.2.2 returned t inside
      rw [ended] at here
      rcases here with here | here <;> cases here

/-- The actions of two workers are a tallied run. -/
theorem pair_tally :
    (pairRun.foldlM (tallyAct pair) ⟨VipsThreadpool.start pair, 0, 0⟩).isSome = true := by
  decide

/-- It is one. -/
theorem tallied_pair : Tallied pair
    ((pairRun.foldlM (tallyAct pair) ⟨VipsThreadpool.start pair, 0, 0⟩).get pair_tally) :=
  Reachable.actions (fun action _ _ moves => ⟨action, moves⟩) (.start rfl)
    (Option.some_get pair_tally).symm

/-- In the run of the pair two turns are empty. -/
theorem progress_iff_sample : ∃ tally, Tallied pair tally ∧ tally.pool.main = .returned ∧
    tally.emptyTurns = 2 ∧ ¬OncePerUnit tally := by
  refine ⟨_, tallied_pair, by decide, by decide, ?_⟩
  exact (progress_iff rfl rfl tallied_pair).2.2 (by decide) (by decide)

/-- For one unit `progress` is called three times. -/
theorem progress_per_unit_fails : ¬∀ (call : Call) (tally : Tally), call.version = .fastFlow →
    call.progress = true → Tallied call tally → OncePerUnit tally := by
  intro all
  have few := (all pair _ rfl rfl tallied_pair).1
  exact absurd few (by decide)

end VipsThreadpool

end P3arsec.Vips
