import P3arsec.Canneal.FixedSteps

/-!
# The temperature steps of the actors

The master actor sends one task to every worker, the workers answer, and when all have answered the
master tests as the emitter of the farm does. The pool of the workers hands out the tasks of a round
in turn, so that each worker gets one. So the actors make the steps of the farm: the answers under
way are its feedback channel, and what the master still waits for is what the emitter has not
received.
-/

namespace P3arsec.Canneal

open P3arsec.Lib

/-- `keep_going` of the actors. -/
def keepGoing (task : CTask) (tempStepsCompleted : Nat) (numberTempSteps : Int) : Bool :=
  if numberTempSteps = -1 then decide (task.acceptedGoodMoves > task.acceptedBadMoves)
  else decide ((tempStepsCompleted : Int) < numberTempSteps)

/-- `master_state`. -/
structure Master where
  /-- `n_res`. -/
  nRes : Nat
  /-- `temp_steps_completed`. -/
  tempStepsCompleted : Nat
  /-- `tasks`. -/
  tasks : Nat → CTask

/-- A worker actor and its messages. -/
structure Worker where
  /-- The number of tasks in its mailbox. -/
  mailbox : Nat
  /-- It is in its handler. -/
  busy : Bool
  /-- Its answers on the way to the master. -/
  answers : List CTask
  /-- The number of temperature steps that it has made. -/
  steps : Nat

/-- The actors. -/
structure Actors where
  /-- The master. -/
  master : Master
  /-- The workers. -/
  workers : Nat → Worker
  /-- The master has quit. -/
  quit : Bool

namespace Actors

variable (nw : Nat) (numberTempSteps : Int)

/-- One task for every worker. -/
def send (workers : Nat → Worker) : Nat → Worker := fun w =>
  if w < nw then { workers w with mailbox := (workers w).mailbox + 1 } else workers w

/-- The actors when the master has sent the initial work. -/
def start : Actors :=
  ⟨⟨nw, 0, fun _ => ⟨0, 0⟩⟩, send nw fun _ => ⟨0, false, [], 0⟩, false⟩

/-- The actors with one worker changed. -/
def setWorker (actors : Actors) (w : Nat) (worker : Worker) : Actors :=
  { actors with workers := Function.update actors.workers w worker }

/-- A worker's change is none of the master's. -/
@[simp] theorem setWorker_master (actors : Actors) (w : Nat) (worker : Worker) :
    (actors.setWorker w worker).master = actors.master := rfl

/-- A worker's change does not quit the actors. -/
@[simp] theorem setWorker_quit (actors : Actors) (w : Nat) (worker : Worker) :
    (actors.setWorker w worker).quit = actors.quit := rfl

/-- The handler of the master. -/
def respond (actors : Actors) (iw : Nat) (task : CTask) : Actors :=
  let tasks := Function.update actors.master.tasks iw task
  let nRes := actors.master.nRes - 1
  let completed := actors.master.tempStepsCompleted
  if nRes = 0 then
    if ∀ i < nw, keepGoing (tasks i) (completed + 1) numberTempSteps = true then
      { actors with master := ⟨nw, completed + 1, tasks⟩, workers := send nw actors.workers }
    else { actors with master := ⟨nRes, completed + 1, tasks⟩, quit := true }
  else { actors with master := ⟨nRes, completed, tasks⟩ }

/-- One step. -/
inductive Step : Actors → Actors → Prop where
  /-- A worker takes a task. -/
  | take {actors : Actors} (w : Nat) (inside : w < nw) (free : (actors.workers w).busy = false)
      (waiting : 0 < (actors.workers w).mailbox) :
      Step actors (actors.setWorker w { actors.workers w with
        mailbox := (actors.workers w).mailbox - 1, busy := true })
  /-- A worker completes its moves and answers. -/
  | answer {actors : Actors} (w : Nat) (task : CTask) (inside : w < nw)
      (busy : (actors.workers w).busy = true) :
      Step actors (actors.setWorker w { actors.workers w with
        busy := false
        answers := (actors.workers w).answers ++ [task]
        steps := (actors.workers w).steps + 1 })
  /-- The master takes an answer. -/
  | receive {actors : Actors} (w : Nat) (task : CTask) (rest : List CTask) (inside : w < nw)
      (runs : actors.quit = false) (waiting : (actors.workers w).answers = task :: rest) :
      Step actors ((actors.setWorker w { actors.workers w with answers := rest }).respond nw
        numberTempSteps w task)

/-- The states that a run of the actors can reach. -/
def Reached : Actors → Prop := Reachable (· = start nw) (Step nw numberTempSteps)

/-- A worker actor is in the state of a worker of the farm. -/
structure SameLane (worker : Worker) (lane : Lane) : Prop where
  /-- The mailbox is the input channel. -/
  queue : lane.queue = worker.mailbox
  /-- The handler is the body of the worker. -/
  work : lane.work = if worker.busy then .moves else .idle
  /-- The answers are in the feedback channel. -/
  feedback : lane.feedback = worker.answers.length
  /-- The steps are the same. -/
  executed : lane.executed.length = worker.steps

/-- The actors are in the state of a farm whose first round has been sent. -/
structure Matches (actors : Actors) (farm : Farm) : Prop where
  /-- The first round has been sent. -/
  begun : farm.emitter.firstRun = false
  /-- The rounds are the same. -/
  completed : farm.emitter.tempStepsCompleted = actors.master.tempStepsCompleted
  /-- The master waits for the answers that the emitter has not received. -/
  received : actors.quit = false → farm.emitter.tasksRcvd + actors.master.nRes = nw
  /-- The ends are the same. -/
  ended : farm.ended = actors.quit
  /-- The workers are the same. -/
  lanes : ∀ w < nw, SameLane (actors.workers w) (farm.lanes w)

variable {nw numberTempSteps} {actors next : Actors} {farm : Farm}

/-- The step of one worker in both. -/
theorem Matches.set (same : Matches nw actors farm) {w : Nat} {worker : Worker} {lane : Lane}
    (slots : Nat → CTask) (here : SameLane worker lane) :
    Matches nw (actors.setWorker w worker) { farm.setLane w lane with allTasks := slots } where
  begun := same.begun
  completed := same.completed
  received := same.received
  ended := same.ended
  lanes u inside := by
    show SameLane (Function.update actors.workers w worker u)
      (Function.update farm.lanes w lane u)
    by_cases own : u = w
    · subst own
      rwa [Function.update_self, Function.update_self]
    · rw [Function.update_of_ne own, Function.update_of_ne own]
      exact same.lanes u inside

/-- The test of the master for a fixed number of steps. -/
theorem keepGoing_all (some : 0 < nw) (fixed : numberTempSteps ≠ -1) (tasks : Nat → CTask)
    (completed : Nat) : (∀ i < nw, keepGoing (tasks i) completed numberTempSteps = true) ↔
      (completed : Int) < numberTempSteps := by
  have each : ∀ i, keepGoing (tasks i) completed numberTempSteps = true ↔
      (completed : Int) < numberTempSteps := by
    intro i
    rw [keepGoing, if_neg fixed, decide_eq_true_eq]
  exact ⟨fun all => (each 0).mp (all 0 some), fun more i _ => (each i).mpr more⟩

/-- A step of the actors is one or two steps of the farm. -/
theorem Matches.step (some : 0 < nw) (fixed : numberTempSteps ≠ -1)
    (reached : Farm.Reached nw numberTempSteps farm) (same : Matches nw actors farm)
    (moves : Step nw numberTempSteps actors next) :
    ∃ farm', Relation.TransGen (Farm.AnyStep nw) farm farm' ∧ Matches nw next farm' := by
  cases moves with
  | take w inside free waiting =>
    have lane := same.lanes w inside
    have idle : (farm.lanes w).work = .idle := by
      rw [lane.work, free]
      rfl
    refine ⟨_, .single ⟨_, .take w inside idle (by rwa [lane.queue])⟩,
      same.set farm.allTasks ⟨?_, rfl, ?_, ?_⟩⟩
    · dsimp only
      rw [lane.queue]
    · exact lane.feedback
    · exact lane.executed
  | answer w task inside busy =>
    have lane := same.lanes w inside
    have moving : (farm.lanes w).work = .moves := by
      rw [lane.work, busy]
      rfl
    -- The worker of the farm writes its slot and then returns the task.
    let written : Farm := { farm.setLane w { farm.lanes w with
      work := .written, executed := (farm.lanes w).executed ++ [task] } with
        allTasks := Function.update farm.allTasks w task }
    have own : written.lanes w = { farm.lanes w with
        work := .written, executed := (farm.lanes w).executed ++ [task] } :=
      Function.update_self _ _ _
    have returns : Farm.Step nw (.giveBack w) written (written.setLane w { written.lanes w with
        work := .idle, feedback := (written.lanes w).feedback + 1 }) :=
      .giveBack w inside (by rw [own])
    rw [own] at returns
    refine ⟨_, .tail (.single ⟨_, .write w task inside moving⟩) ⟨_, returns⟩, ?_⟩
    have twice : ∀ lane, written.setLane w lane = { farm.setLane w lane with
        allTasks := Function.update farm.allTasks w task } := by
      intro lane
      unfold Farm.setLane written Farm.setLane
      dsimp only
      rw [Function.update_idem]
    rw [twice]
    refine same.set _ ⟨lane.queue, rfl, ?_, ?_⟩
    · dsimp only
      rw [lane.feedback, List.length_append, List.length_singleton]
    · dsimp only
      rw [List.length_append, List.length_singleton, lane.executed]
  | receive w task rest inside runs waiting =>
    have lane := same.lanes w inside
    have goes : farm.ended = false := same.ended.trans runs
    have some' : 0 < (farm.lanes w).feedback := by
      rw [lane.feedback, waiting]
      exact Nat.succ_pos _
    have taken : Matches nw (actors.setWorker w { actors.workers w with answers := rest })
        (farm.taken w) := by
      refine same.set farm.allTasks ⟨lane.queue, lane.work, ?_, lane.executed⟩
      dsimp only
      rw [lane.feedback, waiting]
      rfl
    have total := same.received runs
    have few := ((reached.counted some fixed).runs goes).2
    have completed := same.completed
    refine ⟨_, .single ⟨_, .receive w inside goes same.begun some'⟩, ?_⟩
    show Matches nw _ (farm.taken w).reply
    unfold respond
    simp only [keepGoing_all some fixed, setWorker_master]
    rcases reached.inv.fixed_cases some fixed goes same.begun with
      ⟨less, called⟩ | ⟨full, more, called⟩ | ⟨full, done, flag, called⟩
    · rw [called, if_neg (by omega)]
      refine ⟨rfl, completed, fun _ => ?_, taken.ended, taken.lanes⟩
      dsimp only
      omega
    · rw [completed] at more
      rw [called, if_pos (by omega), if_pos more]
      refine ⟨rfl, congrArg (· + 1) completed, fun _ => Nat.zero_add nw, taken.ended, ?_⟩
      intro u known
      have lane := taken.lanes u known
      show SameLane (send nw _ u) (if u < nw then _ else _)
      rw [send, if_pos known, if_pos known]
      exact ⟨congrArg (· + 1) lane.queue, lane.work, lane.feedback, lane.executed⟩
    · rw [completed] at done
      rw [called, if_pos (by omega), if_neg done]
      exact ⟨rfl, congrArg (· + 1) completed, fun goes => (nomatch goes), rfl, taken.lanes⟩

/-- The actors can only do what the farm can. -/
theorem Reached.simulated (some : 0 < nw) (fixed : numberTempSteps ≠ -1)
    (reached : Reached nw numberTempSteps actors) :
    ∃ farm, Farm.Reached nw numberTempSteps farm ∧ Matches nw actors farm := by
  induction reached with
  | start begins =>
    subst begins
    refine ⟨(Farm.create nw numberTempSteps).reply, .step (.start rfl) ⟨_, .first rfl⟩,
      rfl, rfl, fun _ => Nat.zero_add nw, rfl, fun w inside => ?_⟩
    have lane : (Farm.create nw numberTempSteps).reply.lanes w = ⟨1, .idle, 0, []⟩ := if_pos inside
    have worker : (start nw).workers w = ⟨1, false, [], 0⟩ := if_pos inside
    rw [lane, worker]
    exact ⟨rfl, rfl, rfl, rfl⟩
  | step _ moves ih =>
    obtain ⟨farm, reached, same⟩ := ih
    obtain ⟨farm', run, same'⟩ := same.step some fixed reached moves
    exact ⟨farm', reached.trans run.to_reflTransGen, same'⟩

/-- When the master has quit every worker has made the steps of the farm. -/
theorem Reached.completed (some : 0 < nw) (fixed : numberTempSteps ≠ -1)
    (reached : Reached nw numberTempSteps actors) (quit : actors.quit = true) {w : Nat}
    (inside : w < nw) : (actors.workers w).steps = Farm.fixedRounds numberTempSteps := by
  obtain ⟨farm, reachedFarm, same⟩ := reached.simulated some fixed
  rw [← (same.lanes w inside).executed]
  exact reachedFarm.completed some fixed (same.ended.trans quit) inside

/-- The master has quit or there is a step. -/
theorem Reached.progress (some : 0 < nw) (fixed : numberTempSteps ≠ -1)
    (reached : Reached nw numberTempSteps actors) :
    actors.quit = true ∨ ∃ next, Step nw numberTempSteps actors next := by
  obtain ⟨farm, reachedFarm, same⟩ := reached.simulated some fixed
  refine (reachedFarm.progress some fixed).imp (fun ends => same.ended.symm.trans ends) ?_
  rintro ⟨next, event, moves⟩
  cases moves with
  | first begins => exact absurd (same.begun.symm.trans begins) (by decide)
  | take w inside free waiting =>
    have lane := same.lanes w inside
    have work := lane.work
    rw [free] at work
    rw [lane.queue] at waiting
    refine ⟨_, .take w inside ?_ waiting⟩
    cases busy : (actors.workers w).busy
    · rfl
    · rw [busy] at work
      cases work
  | write w task inside moving =>
    have work := (same.lanes w inside).work
    rw [moving] at work
    refine ⟨_, .answer w task inside ?_⟩
    cases busy : (actors.workers w).busy
    · rw [busy] at work
      cases work
    · rfl
  | giveBack w inside done =>
    have work := (same.lanes w inside).work
    rw [done] at work
    cases busy : (actors.workers w).busy <;> rw [busy] at work <;> cases work
  | receive w inside goes begun waiting =>
    rw [(same.lanes w inside).feedback] at waiting
    obtain ⟨task, rest, answers⟩ := List.exists_cons_of_length_pos waiting
    exact ⟨_, .receive w task rest inside (same.ended.symm.trans goes) answers⟩

/-- What the actors have still to do is what the farm has. -/
def actorsLeft (nw : Nat) (numberTempSteps : Int) (actors : Actors) : Nat :=
  (2 * nw + 1) * (Farm.fixedRounds numberTempSteps - actors.master.tempStepsCompleted) +
    ∑ w ∈ Finset.range nw, (4 * (Farm.fixedRounds numberTempSteps - (actors.workers w).steps) +
      2 * (actors.workers w).mailbox + (actors.workers w).busy.toNat +
      (actors.workers w).answers.length)

/-- The actors have as many steps left as the farm. -/
theorem Matches.left (same : Matches nw actors farm) :
    Farm.farmLeft nw numberTempSteps farm = actorsLeft nw numberTempSteps actors := by
  unfold Farm.farmLeft actorsLeft
  rw [same.begun, same.completed, if_neg Bool.false_ne_true, Nat.zero_add]
  congr 1
  refine Finset.sum_congr rfl fun w member => ?_
  have lane := same.lanes w (Finset.mem_range.mp member)
  unfold Farm.laneLeft
  rw [lane.executed, lane.queue, lane.feedback, lane.work]
  cases (actors.workers w).busy <;> rfl

/-- Each step leaves the actors less to do. -/
theorem Reached.lowers (some : 0 < nw) (fixed : numberTempSteps ≠ -1)
    (reached : Reached nw numberTempSteps actors) (moves : Step nw numberTempSteps actors next) :
    actorsLeft nw numberTempSteps next < actorsLeft nw numberTempSteps actors := by
  obtain ⟨farm, reachedFarm, same⟩ := reached.simulated some fixed
  obtain ⟨farm', run, same'⟩ := same.step some fixed reachedFarm moves
  rw [← same.left, ← same'.left]
  clear same same' moves
  induction run with
  | single moves => exact reachedFarm.lowers some fixed moves
  | tail run moves ih =>
    have middle := reachedFarm.trans run.to_reflTransGen
    exact (Farm.Reached.lowers some fixed middle moves).trans ih

end Actors

/-- When the farm, the actors and the threads have ended, each worker of the farm and of the actors
has made as many temperature steps as the thread with its number. -/
def StepsAgree (nworkers : Nat) (numberTempSteps : Int) : Prop :=
  ∀ farm actors annealer, Farm.Reached nworkers numberTempSteps farm → farm.ended = true →
    Actors.Reached nworkers numberTempSteps actors → actors.quit = true →
    Annealer.FixedRun nworkers numberTempSteps annealer → Annealer.Finished nworkers annealer →
    ∀ t < nworkers,
      (farm.lanes t).executed.length = (annealer.threads t).tempStepsCompleted ∧
      (actors.workers t).steps = (annealer.threads t).tempStepsCompleted

/-- Every run of the three versions can be carried on to its end, and none goes on forever. -/
def AllEnd (nworkers : Nat) (numberTempSteps : Int) : Prop :=
  (∀ farm, Farm.Reached nworkers numberTempSteps farm → ∃ last,
    Relation.ReflTransGen (Farm.AnyStep nworkers) farm last ∧ last.ended = true) ∧
  (∀ actors, Actors.Reached nworkers numberTempSteps actors → ∃ last,
    Relation.ReflTransGen (Actors.Step nworkers numberTempSteps) actors last ∧
      last.quit = true) ∧
  (∀ annealer, Annealer.FixedRun nworkers numberTempSteps annealer → ∃ last,
    Relation.ReflTransGen (Annealer.AnyFixedStep nworkers numberTempSteps) annealer last ∧
      Annealer.Finished nworkers last) ∧
  (¬∃ run : Nat → Farm, run 0 = Farm.create nworkers numberTempSteps ∧
    ∀ i, Farm.AnyStep nworkers (run i) (run (i + 1))) ∧
  (¬∃ run : Nat → Actors, run 0 = Actors.start nworkers ∧
    ∀ i, Actors.Step nworkers numberTempSteps (run i) (run (i + 1))) ∧
  ¬∃ run : Nat → Annealer, run 0 = Annealer.start ∧
    ∀ i, Annealer.AnyFixedStep nworkers numberTempSteps (run i) (run (i + 1))

variable {nworkers : Nat} {numberTempSteps : Int}

/-- With a fixed number of temperature steps all workers end. -/
theorem allEnd (some : 0 < nworkers) (fixed : numberTempSteps ≠ -1) :
    AllEnd nworkers numberTempSteps := by
  have farm : ∀ state next, Farm.Reached nworkers numberTempSteps state →
      Farm.AnyStep nworkers state next → Farm.farmLeft nworkers numberTempSteps next <
        Farm.farmLeft nworkers numberTempSteps state :=
    fun _ _ reached moves => reached.lowers some fixed moves
  have actors : ∀ state next, Actors.Reached nworkers numberTempSteps state →
      Actors.Step nworkers numberTempSteps state next →
        Actors.actorsLeft nworkers numberTempSteps next <
          Actors.actorsLeft nworkers numberTempSteps state :=
    fun _ _ reached moves => reached.lowers some fixed moves
  have threads : ∀ state next, Annealer.FixedRun nworkers numberTempSteps state →
      Annealer.AnyFixedStep nworkers numberTempSteps state next →
        ∑ t ∈ Finset.range nworkers, Annealer.stepsLeft numberTempSteps (next.threads t) <
          ∑ t ∈ Finset.range nworkers, Annealer.stepsLeft numberTempSteps (state.threads t) :=
    fun _ _ run moves => run.lowers some moves
  refine ⟨fun _ reached => ?_, fun _ reached => ?_, fun _ run => ?_, ?_, ?_, ?_⟩
  · exact reached.exists_final _ farm fun _ reached => Farm.Reached.progress some fixed reached
  · exact reached.exists_final _ actors fun _ reached => Actors.Reached.progress some fixed reached
  · exact run.exists_final _ threads fun _ run => Annealer.FixedRun.progress some run
  · exact Reachable.no_infinite_run _ farm
  · exact Reachable.no_infinite_run _ actors
  · exact Reachable.no_infinite_run _ threads

/-- What the versions make when they agree. -/
theorem StepsAgree.rounds_eq (some : 0 < nworkers) (fixed : numberTempSteps ≠ -1)
    (agree : StepsAgree nworkers numberTempSteps) :
    Farm.fixedRounds numberTempSteps = numberTempSteps.toNat := by
  obtain ⟨farms, masters, threads, -⟩ := allEnd some fixed
  obtain ⟨farm, farmRun, ended⟩ := farms _ (.start rfl)
  obtain ⟨actors, actorsRun, quit⟩ := masters _ (.start rfl)
  obtain ⟨annealer, threadsRun, finished⟩ := threads _ (.start rfl)
  have farmReached : Farm.Reached nworkers numberTempSteps farm :=
    Reachable.trans (.start rfl) farmRun
  have run : Annealer.FixedRun nworkers numberTempSteps annealer :=
    Reachable.trans (.start rfl) threadsRun
  have same := (agree farm actors annealer farmReached ended
    (Reachable.trans (.start rfl) actorsRun) quit run finished 0 some).1
  rwa [farmReached.completed some fixed ended some, run.completed some some (finished 0 some)]
    at same

/-- The first round is sent before any test, so that a worker makes a step where a thread makes
none: the versions agree exactly when there is at least one step to make. -/
theorem stepsAgree_iff (some : 0 < nworkers) (fixed : numberTempSteps ≠ -1) :
    (StepsAgree nworkers numberTempSteps ↔ 1 ≤ numberTempSteps) ∧
      AllEnd nworkers numberTempSteps := by
  refine ⟨⟨fun agree => ?_, fun steps => ?_⟩, allEnd some fixed⟩
  · have rounds := agree.rounds_eq some fixed
    rw [Farm.fixedRounds] at rounds
    omega
  · intro farm actors annealer farmReached ended reached quit run finished t inside
    have rounds : Farm.fixedRounds numberTempSteps = numberTempSteps.toNat := by
      rw [Farm.fixedRounds]
      omega
    rw [farmReached.completed some fixed ended inside, reached.completed some fixed quit inside,
      run.completed some inside (finished t inside), rounds]
    exact ⟨rfl, rfl⟩

/-- Two workers and three steps. -/
theorem stepsAgree_sample : StepsAgree 2 3 ∧ AllEnd 2 3 := by
  have result := @stepsAgree_iff 2 3 (by decide) (by decide)
  exact ⟨result.1.mpr (by decide), result.2⟩

/-- Without a step to make a thread makes none, and a worker makes one. -/
theorem steps_disagree : ¬∀ (nworkers : Nat) (numberTempSteps : Int), 0 < nworkers →
    numberTempSteps ≠ -1 → StepsAgree nworkers numberTempSteps := by
  intro all
  have rounds := (all 1 0 (by decide) (by decide)).rounds_eq (by decide) (by decide)
  exact absurd rounds (by decide)

end P3arsec.Canneal
