import P3arsec.Canneal.Rounds
import P3arsec.Canneal.Threads
import P3arsec.Lib.Marks

/-!
# A fixed number of temperature steps

With a number of steps other than -1 a thread tests its own count before each step, so that it makes
no step when the number is not positive. The emitter of the farm sends the first round before it
tests anything, so that a worker makes at least one. Both versions always come to their end.
-/

namespace P3arsec.Canneal

open P3arsec.Lib

namespace Annealer

variable (nthreads : Nat) (numberTempSteps : Int)

/-- One step of the threads, with `keep_going` for a fixed number of steps. -/
inductive FixedStep : Action → Annealer → Annealer → Prop where
  /-- The thread goes on while it has not completed the steps. -/
  | test {annealer : Annealer} (t : Nat) (inside : t < nthreads)
      (here : (annealer.threads t).place = .test) :
      FixedStep (.test t) annealer (annealer.setThread t { annealer.threads t with
        place := if ((annealer.threads t).tempStepsCompleted : Int) < numberTempSteps
          then .moves else .left })
  /-- The thread completes its step and comes to the barrier. -/
  | moves {annealer : Annealer} (t : Nat) (inside : t < nthreads)
      (here : (annealer.threads t).place = .moves) :
      FixedStep (.moves t) annealer (annealer.setThread t
        ⟨.barrier, (annealer.threads t).tempStepsCompleted + 1⟩)
  /-- When all threads are at the barrier, they go on to their tests. -/
  | release {annealer : Annealer}
      (all : ∀ t < nthreads, (annealer.threads t).place = .barrier) :
      FixedStep .release annealer { annealer with
        threads := fun t => { annealer.threads t with place := .test } }

/-- A step of any kind. -/
def AnyFixedStep (annealer next : Annealer) : Prop :=
  ∃ action, FixedStep nthreads numberTempSteps action annealer next

/-- The states that a run of the threads can reach. -/
def FixedRun : Annealer → Prop := Reachable (· = start) (AnyFixedStep nthreads numberTempSteps)

/-- All threads have left their loops. -/
def Finished (annealer : Annealer) : Prop := ∀ t < nthreads, (annealer.threads t).place = .left

/-- What is known of a thread in a round. -/
inductive InRound (round : Nat) : Thread → Prop where
  /-- It is before its test. -/
  | test : InRound round ⟨.test, round⟩
  /-- It makes its moves. -/
  | moves (more : (round : Int) < numberTempSteps) : InRound round ⟨.moves, round⟩
  /-- It waits at the barrier. -/
  | barrier (more : (round : Int) < numberTempSteps) : InRound round ⟨.barrier, round + 1⟩
  /-- It has left. -/
  | left (done : ¬(round : Int) < numberTempSteps) : InRound round ⟨.left, round⟩

/-- While there is a step to make no thread leaves. -/
theorem InRound.running {numberTempSteps : Int} {round : Nat} {thread : Thread}
    (own : InRound numberTempSteps round thread) (more : (round : Int) < numberTempSteps) :
    thread.place = .test ∨ thread.place = .moves ∨ thread.place = .barrier := by
  cases own with
  | test => exact .inl rfl
  | moves => exact .inr (.inl rfl)
  | barrier => exact .inr (.inr rfl)
  | left done => exact absurd more done

/-- When the steps are completed the threads leave. -/
theorem InRound.leaving {numberTempSteps : Int} {round : Nat} {thread : Thread}
    (own : InRound numberTempSteps round thread) (done : ¬(round : Int) < numberTempSteps) :
    thread.place = .test ∨ thread.place = .left := by
  cases own with
  | test => exact .inl rfl
  | moves more | barrier more => exact absurd more done
  | left => exact .inr rfl

/-- All threads are in the same round. -/
def SameRound (annealer : Annealer) : Prop :=
  ∃ round : Nat, round ≤ numberTempSteps.toNat ∧
    ∀ t < nthreads, InRound numberTempSteps round (annealer.threads t)

variable {nthreads numberTempSteps} {annealer next : Annealer} {action : Action}

/-- The step of one thread in its round. -/
theorem SameRound.set {round t : Nat} {thread : Thread} (few : round ≤ numberTempSteps.toNat)
    (threads : ∀ u < nthreads, InRound numberTempSteps round (annealer.threads u))
    (here : InRound numberTempSteps round thread) :
    SameRound nthreads numberTempSteps (annealer.setThread t thread) := by
  refine ⟨round, few, fun u known => ?_⟩
  rw [threads_setThread]
  split
  · exact here
  · exact threads u known

/-- Every step keeps the threads together. -/
theorem SameRound.step (some : 0 < nthreads) (same : SameRound nthreads numberTempSteps annealer)
    (moves : FixedStep nthreads numberTempSteps action annealer next) :
    SameRound nthreads numberTempSteps next := by
  obtain ⟨round, few, threads⟩ := same
  cases moves with
  | test t inside here =>
    have own := threads t inside
    refine SameRound.set few threads ?_
    cases thread : annealer.threads t with
    | mk place completed =>
      rw [thread] at own here
      cases own with
      | test =>
        dsimp only
        split
        · rename_i more
          exact .moves more
        · rename_i done
          exact .left done
      | _ => cases here
  | moves t inside here =>
    have own := threads t inside
    refine SameRound.set few threads ?_
    cases thread : annealer.threads t with
    | mk place completed =>
      rw [thread] at own here
      cases own with
      | moves more => exact .barrier more
      | _ => cases here
  | release all =>
    have next : ∀ t < nthreads, (round : Int) < numberTempSteps ∧
        annealer.threads t = ⟨.barrier, round + 1⟩ := by
      intro t inside
      have own := threads t inside
      have here := all t inside
      cases thread : annealer.threads t with
      | mk place completed =>
        rw [thread] at own here
        cases own with
        | barrier more => exact ⟨more, rfl⟩
        | _ => cases here
    refine ⟨round + 1, ?_, fun t inside => ?_⟩
    · have more := (next 0 some).1
      omega
    · dsimp only
      rw [(next t inside).2]
      exact .test

/-- With a fixed number of temperature steps the threads make the same rounds. -/
theorem FixedRun.sameRound (some : 0 < nthreads)
    (run : FixedRun nthreads numberTempSteps annealer) :
    SameRound nthreads numberTempSteps annealer := by
  apply Reachable.invariant ?_ ?_ run
  · rintro _ rfl
    exact ⟨0, Nat.zero_le _, fun _ _ => .test⟩
  · rintro annealer next same ⟨action, moves⟩
    exact same.step some moves

/-- A thread that has left has made the number of steps, or none if that is negative. -/
theorem FixedRun.completed (some : 0 < nthreads)
    (run : FixedRun nthreads numberTempSteps annealer) {t : Nat} (inside : t < nthreads)
    (left : (annealer.threads t).place = .left) :
    (annealer.threads t).tempStepsCompleted = numberTempSteps.toNat := by
  obtain ⟨round, few, threads⟩ := run.sameRound some
  have own := threads t inside
  cases thread : annealer.threads t with
  | mk place completed =>
    rw [thread] at own left
    cases own with
    | left done =>
      dsimp only
      omega
    | _ => cases left

/-- The threads have left or there is a step. -/
theorem FixedRun.progress (some : 0 < nthreads)
    (run : FixedRun nthreads numberTempSteps annealer) :
    Finished nthreads annealer ∨ ∃ next, AnyFixedStep nthreads numberTempSteps annealer next := by
  obtain ⟨round, few, threads⟩ := run.sameRound some
  by_cases more : (round : Int) < numberTempSteps
  · right
    by_cases all : ∀ t < nthreads, (annealer.threads t).place = .barrier
    · exact ⟨_, .release, .release all⟩
    · push Not at all
      obtain ⟨t, inside, apart⟩ := all
      rcases (threads t inside).running more with here | here | here
      · exact ⟨_, .test t, .test t inside here⟩
      · exact ⟨_, .moves t, .moves t inside here⟩
      · exact absurd here apart
  · by_cases all : Finished nthreads annealer
    · exact .inl all
    · right
      unfold Finished at all
      push Not at all
      obtain ⟨t, inside, apart⟩ := all
      have here := ((threads t inside).leaving more).resolve_right apart
      exact ⟨_, .test t, .test t inside here⟩

/-- What a thread has still to do in a round. -/
def placeRank : Place → Nat
  | .test => 2
  | .signal => 1
  | .moves => 1
  | .barrier => 3
  | .left => 0

/-- What a thread has still to do. -/
def stepsLeft (numberTempSteps : Int) (thread : Thread) : Nat :=
  3 * (numberTempSteps.toNat - thread.tempStepsCompleted) + placeRank thread.place

/-- Each step leaves the threads less to do. -/
theorem FixedRun.lowers (some : 0 < nthreads) (run : FixedRun nthreads numberTempSteps annealer)
    (moves : AnyFixedStep nthreads numberTempSteps annealer next) :
    ∑ t ∈ Finset.range nthreads, stepsLeft numberTempSteps (next.threads t) <
      ∑ t ∈ Finset.range nthreads, stepsLeft numberTempSteps (annealer.threads t) := by
  obtain ⟨round, few, threads⟩ := run.sameRound some
  -- A step of one thread lowers what this thread has to do.
  have one : ∀ t < nthreads, ∀ thread : Thread,
      stepsLeft numberTempSteps thread < stepsLeft numberTempSteps (annealer.threads t) →
      ∑ u ∈ Finset.range nthreads, 
        stepsLeft numberTempSteps ((annealer.setThread t thread).threads u) <
        ∑ u ∈ Finset.range nthreads, stepsLeft numberTempSteps (annealer.threads u) := by
    intro t inside thread lower
    have sum := sum_range_update (stepsLeft numberTempSteps) annealer.threads thread inside
    rw [setThread]
    dsimp only
    omega
  obtain ⟨action, moves⟩ := moves
  cases moves with
  | test t inside here =>
    refine one t inside _ (Nat.add_lt_add_left ?_ _)
    rw [here]
    dsimp only
    split
    · exact show placeRank .moves < placeRank .test by decide
    · exact show placeRank .left < placeRank .test by decide
  | moves t inside here =>
    refine one t inside _ ?_
    have own := threads t inside
    cases thread : annealer.threads t with
    | mk place completed =>
      rw [thread] at own here
      cases own with
      | moves more =>
        simp only [stepsLeft, placeRank]
        omega
      | _ => cases here
  | release all =>
    refine Finset.sum_lt_sum_of_nonempty ?_ fun t member => ?_
    · exact Finset.nonempty_range_iff.mpr (Nat.pos_iff_ne_zero.mp some)
    · rw [stepsLeft, stepsLeft, all t (Finset.mem_range.mp member)]
      exact Nat.add_lt_add_left (show placeRank .test < placeRank .barrier by decide) _

end Annealer

namespace Farm

variable {nworkers : Nat} {numberTempSteps : Int} {farm next : Farm} {event : Event}

/-- The number of rounds for a fixed number of steps: the first one is sent before any test. -/
def fixedRounds (numberTempSteps : Int) : Nat := max 1 numberTempSteps.toNat

/-- What the emitter has counted. -/
structure Counted (nworkers : Nat) (numberTempSteps : Int) (farm : Farm) : Prop where
  /-- Before the end there is another round, and a task of the current one has not come back. -/
  runs : farm.ended = false → farm.emitter.tempStepsCompleted < fixedRounds numberTempSteps ∧
    farm.emitter.tasksRcvd < nworkers
  /-- All rounds are completed at the end. -/
  ends : farm.ended = true → farm.emitter.tempStepsCompleted = fixedRounds numberTempSteps

/-- The outcomes of a call of the emitter for a fixed number of steps. -/
theorem Inv.fixed_cases {t : Nat} (some : 0 < nworkers) (fixed : numberTempSteps ≠ -1)
    (inv : Inv nworkers numberTempSteps farm) (open_ : farm.ended = false)
    (begun : farm.emitter.firstRun = false) :
    let completed := farm.emitter.tempStepsCompleted
    let received := farm.emitter.tasksRcvd
    (received + 1 ≠ nworkers ∧ (farm.taken t).reply = { farm.taken t with
      emitter := ⟨completed, nworkers, received + 1, numberTempSteps, true, false⟩ }) ∨
    (received + 1 = nworkers ∧ ((completed + 1 : Nat) : Int) < numberTempSteps ∧
      (farm.taken t).reply = { farm.taken t with
        emitter := ⟨completed + 1, nworkers, 0, numberTempSteps, true, false⟩
        lanes := fun u =>
          if u < nworkers then
            { (farm.taken t).lanes u with queue := ((farm.taken t).lanes u).queue + 1 }
          else (farm.taken t).lanes u }) ∨
    (received + 1 = nworkers ∧ ¬((completed + 1 : Nat) : Int) < numberTempSteps ∧ ∃ flag,
      (farm.taken t).reply = { farm.taken t with
        emitter := ⟨completed + 1, nworkers, 0, numberTempSteps, flag, false⟩
        ended := true }) := by
  cases inv with
  | fresh same =>
    subst same
    cases begun
  | ended completed begun counted ends home => simp [ends] at open_
  | round completed arrived emitter runs member home away =>
    have same : (farm.taken t).emitter =
        ⟨completed, nworkers, arrived.card, numberTempSteps, true, false⟩ := emitter
    have passes : ∀ task, Emitter.Passes numberTempSteps (completed + 1) task ↔
        ((completed + 1 : Nat) : Int) < numberTempSteps := by
      intro task
      rw [Emitter.Passes, if_neg fixed]
    rw [emitter]
    rcases reply_cases same with ⟨less, called⟩ | ⟨full, more, called⟩ |
      ⟨full, ⟨u, -, done⟩, called⟩
    · exact .inl ⟨less, called⟩
    · exact .inr (.inl ⟨full, (passes _).mp (more 0 some), called⟩)
    · exact .inr (.inr ⟨full, fun more => done ((passes _).mpr more), called⟩)

/-- Every step keeps the count. -/
theorem Counted.step (some : 0 < nworkers) (fixed : numberTempSteps ≠ -1)
    (inv : Inv nworkers numberTempSteps farm) (counted : Counted nworkers numberTempSteps farm)
    (moves : Step nworkers event farm next) : Counted nworkers numberTempSteps next := by
  cases moves with
  | first begins =>
    have called : farm.reply.emitter.tempStepsCompleted = farm.emitter.tempStepsCompleted ∧
        farm.reply.emitter.tasksRcvd = farm.emitter.tasksRcvd ∧ farm.reply.ended = farm.ended := by
      rw [reply, show farm.emitter.svc farm.allTasks =
        (.broadcast, { farm.emitter with firstRun := false }) from if_pos begins]
      exact ⟨rfl, rfl, rfl⟩
    obtain ⟨completed, received, ended⟩ := called
    constructor
    · rw [completed, received, ended]
      exact counted.runs
    · rw [completed, ended]
      exact counted.ends
  | take t inside free waiting => exact ⟨counted.runs, counted.ends⟩
  | write t task inside busy => exact ⟨counted.runs, counted.ends⟩
  | giveBack t inside done => exact ⟨counted.runs, counted.ends⟩
  | receive t inside open_ begun waiting =>
    obtain ⟨before, few⟩ := counted.runs open_
    rw [fixedRounds] at before
    show Counted _ _ (farm.taken t).reply
    rcases inv.fixed_cases some fixed open_ begun with
      ⟨less, called⟩ | ⟨-, more, called⟩ | ⟨-, done, flag, called⟩
    · rw [called]
      refine ⟨fun _ => ⟨before, ?_⟩, fun ends => absurd (open_.symm.trans ends) (by decide)⟩
      dsimp only
      omega
    · rw [called]
      refine ⟨fun _ => ⟨?_, some⟩, fun ends => absurd (open_.symm.trans ends) (by decide)⟩
      rw [fixedRounds]
      dsimp only
      omega
    · rw [called]
      refine ⟨fun runs => absurd runs (by simp), fun _ => ?_⟩
      rw [fixedRounds]
      dsimp only
      omega

/-- With a fixed number of temperature steps the rounds are counted. -/
theorem Reached.counted (some : 0 < nworkers) (fixed : numberTempSteps ≠ -1)
    (reached : Reached nworkers numberTempSteps farm) : Counted nworkers numberTempSteps farm := by
  induction reached with
  | start begins =>
    subst begins
    refine ⟨fun _ => ⟨?_, some⟩, fun ends => nomatch ends⟩
    exact lt_of_lt_of_le Nat.one_pos (Nat.le_max_left _ _)
  | step reached moves ih =>
    obtain ⟨event, moves⟩ := moves
    exact ih.step some fixed (Reached.inv reached) moves

/-- At the end every worker has made a step in each round. -/
theorem Reached.completed (some : 0 < nworkers) (fixed : numberTempSteps ≠ -1)
    (reached : Reached nworkers numberTempSteps farm) (ended : farm.ended = true) {t : Nat}
    (inside : t < nworkers) :
    (farm.lanes t).executed.length = fixedRounds numberTempSteps := by
  have total := (reached.counted some fixed).ends ended
  cases reached.inv with
  | fresh same =>
    subst same
    cases ended
  | round completed arrived emitter runs member home away =>
    exact absurd (runs.symm.trans ended) (by decide)
  | ended completed begun counted ends home =>
    rw [counted] at total
    rw [← total]
    exact (home t inside).2.2.2.1

/-- The stream has ended or there is a step. -/
theorem Reached.progress (some : 0 < nworkers) (fixed : numberTempSteps ≠ -1)
    (reached : Reached nworkers numberTempSteps farm) :
    farm.ended = true ∨ ∃ next, AnyStep nworkers farm next := by
  have counted := reached.counted some fixed
  cases reached.inv with
  | fresh same =>
    subst same
    exact .inr ⟨_, .first, .first rfl⟩
  | ended completed begun counted ends home => exact .inl ends
  | round completed arrived emitter runs member home away =>
    right
    -- The task of some worker is in flight.
    have few := (counted.runs runs).2
    rw [emitter] at few
    obtain ⟨t, known, apart⟩ := Finset.exists_of_ssubset
      (member.ssubset_of_ne fun all => by
        rw [all, Finset.card_range] at few
        exact absurd few (Nat.lt_irrefl _))
    have inside := Finset.mem_range.mp known
    have flight := away t inside apart
    have begun : farm.emitter.firstRun = false := by rw [emitter]
    cases lane : farm.lanes t with
    | mk queue work feedback executed =>
      rw [lane] at flight
      cases flight with
      | queued steps => 
        exact ⟨_, .take t, .take t inside (by rw [lane]) (by rw [lane]; exact Nat.one_pos)⟩
      | moves steps => exact ⟨_, .write t ⟨0, 0⟩, .write t ⟨0, 0⟩ inside (by rw [lane])⟩
      | written steps last => exact ⟨_, .giveBack t, .giveBack t inside (by rw [lane])⟩
      | returned steps last =>
        exact ⟨_, .receive t, .receive t inside runs begun (by rw [lane]; exact Nat.one_pos)⟩

/-- What a worker has still to do in a round. -/
def workRank : Work → Nat
  | .idle => 0
  | .moves => 1
  | .written => 2

/-- What a worker and its channels have still to do. -/
def laneLeft (numberTempSteps : Int) (lane : Lane) : Nat :=
  4 * (fixedRounds numberTempSteps - lane.executed.length) + 2 * lane.queue + workRank lane.work +
    lane.feedback

/-- What the farm has still to do. -/
def farmLeft (nworkers : Nat) (numberTempSteps : Int) (farm : Farm) : Nat :=
  (if farm.emitter.firstRun then 2 * nworkers + 1 else 0) +
    (2 * nworkers + 1) * (fixedRounds numberTempSteps - farm.emitter.tempStepsCompleted) +
    ∑ t ∈ Finset.range nworkers, laneLeft numberTempSteps (farm.lanes t)

/-- A change of one worker that leaves it less to do. -/
theorem sum_lt {t : Nat} {lane : Lane} (inside : t < nworkers)
    (lower : laneLeft numberTempSteps lane < laneLeft numberTempSteps (farm.lanes t)) :
    ∑ u ∈ Finset.range nworkers, laneLeft numberTempSteps ((farm.setLane t lane).lanes u) <
      ∑ u ∈ Finset.range nworkers, laneLeft numberTempSteps (farm.lanes u) := by
  have sum := sum_range_update (laneLeft numberTempSteps) farm.lanes lane inside
  unfold setLane
  dsimp only
  omega

/-- The step of one worker leaves the farm less to do. -/
theorem farmLeft_lt {t : Nat} {lane : Lane} {slots : Nat → CTask} (inside : t < nworkers)
    (lower : laneLeft numberTempSteps lane < laneLeft numberTempSteps (farm.lanes t)) :
    farmLeft nworkers numberTempSteps { farm.setLane t lane with allTasks := slots } <
      farmLeft nworkers numberTempSteps farm := by
  have sum := sum_lt inside lower
  unfold farmLeft
  exact Nat.add_lt_add_left sum _

/-- A broadcast gives every worker one more task. -/
theorem sum_broadcast (nworkers : Nat) (numberTempSteps : Int) (lanes : Nat → Lane) :
    ∑ t ∈ Finset.range nworkers, laneLeft numberTempSteps
        (if t < nworkers then { lanes t with queue := (lanes t).queue + 1 } else lanes t) =
      ∑ t ∈ Finset.range nworkers, laneLeft numberTempSteps (lanes t) + 2 * nworkers := by
  have each : ∀ t ∈ Finset.range nworkers, laneLeft numberTempSteps
      (if t < nworkers then { lanes t with queue := (lanes t).queue + 1 } else lanes t) =
        laneLeft numberTempSteps (lanes t) + 2 := by
    intro t member
    rw [if_pos (Finset.mem_range.mp member)]
    unfold laneLeft
    dsimp only
    omega
  rw [Finset.sum_congr rfl each, Finset.sum_add_distrib, Finset.sum_const, Finset.card_range,
    smul_eq_mul, Nat.mul_comm nworkers]

/-- Each step leaves the farm less to do. -/
theorem Reached.lowers (some : 0 < nworkers) (fixed : numberTempSteps ≠ -1)
    (reached : Reached nworkers numberTempSteps farm) (moves : AnyStep nworkers farm next) :
    farmLeft nworkers numberTempSteps next < farmLeft nworkers numberTempSteps farm := by
  have counted := reached.counted some fixed
  obtain ⟨event, moves⟩ := moves
  cases moves with
  | first begins =>
    cases reached.inv with
    | fresh same =>
      subst same
      have called : (create nworkers numberTempSteps).reply = { create nworkers numberTempSteps with
          emitter := ⟨0, nworkers, 0, numberTempSteps, true, false⟩
          lanes := fun t =>
            if t < nworkers then
              { (create nworkers numberTempSteps).lanes t with
                queue := ((create nworkers numberTempSteps).lanes t).queue + 1 }
            else (create nworkers numberTempSteps).lanes t } := rfl
      rw [called]
      unfold farmLeft
      dsimp only
      rw [sum_broadcast]
      simp only [create, Emitter.create, if_true, Bool.false_eq_true, if_false]
      omega
    | round completed arrived emitter => simp [emitter] at begins
    | ended completed begun => simp [begun] at begins
  | take t inside free waiting =>
    refine farmLeft_lt inside ?_
    unfold laneLeft
    rw [free]
    simp only [workRank]
    omega
  | write t task inside busy =>
    have few : (farm.lanes t).executed.length < fixedRounds numberTempSteps := by
      cases reached.inv with
      | fresh same =>
        subst same
        cases busy
      | ended completed begun counts ends home => simp [(home t inside).rest] at busy
      | round completed arrived emitter runs member home away =>
        have before := (counted.runs runs).1
        rw [emitter] at before
        dsimp only at before
        have apart : t ∉ arrived := fun known => by simp [(home t known).rest] at busy
        have flight := away t inside apart
        cases lane : farm.lanes t with
        | mk queue work feedback executed =>
          rw [lane] at flight busy
          cases flight with
          | moves steps =>
            dsimp only
            omega
          | _ => cases busy
    refine farmLeft_lt inside ?_
    unfold laneLeft
    rw [busy, List.length_append, List.length_singleton]
    simp only [workRank]
    omega
  | giveBack t inside done =>
    refine farmLeft_lt inside ?_
    unfold laneLeft
    rw [done]
    simp only [workRank]
    omega
  | receive t inside open_ begun waiting =>
    obtain ⟨before, -⟩ := counted.runs open_
    show farmLeft _ _ (farm.taken t).reply < _
    have one : ∑ u ∈ Finset.range nworkers, laneLeft numberTempSteps ((farm.taken t).lanes u) <
        ∑ u ∈ Finset.range nworkers, laneLeft numberTempSteps (farm.lanes u) := by
      refine sum_lt inside ?_
      unfold laneLeft
      dsimp only
      omega
    -- A completed round makes up for the tasks of the next one.
    have fewer : (2 * nworkers + 1) *
          (fixedRounds numberTempSteps - (farm.emitter.tempStepsCompleted + 1)) +
        (2 * nworkers + 1) =
          (2 * nworkers + 1) * (fixedRounds numberTempSteps - farm.emitter.tempStepsCompleted) := by
      rw [← Nat.mul_succ]
      congr 1
      omega
    rcases reached.inv.fixed_cases some fixed open_ begun with
      ⟨-, called⟩ | ⟨-, -, called⟩ | ⟨-, -, flag, called⟩
    · rw [called]
      unfold farmLeft
      rw [begun]
      dsimp only
      omega
    · rw [called]
      unfold farmLeft
      rw [begun]
      dsimp only
      rw [sum_broadcast]
      simp only [Bool.false_eq_true, if_false]
      omega
    · rw [called]
      unfold farmLeft
      rw [begun]
      dsimp only
      simp only [Bool.false_eq_true, if_false]
      omega

end Farm

end P3arsec.Canneal
