import P3arsec.Lib.Run

/-!
# The rounds of the annealing farm

The emitter sends one task to every worker, waits until that many tasks have come back, and tests
the counts that the workers have left in a shared array. The tasks carry nothing: which round a
task belongs to is known only because a round ends when no task is in flight. The invariant says
where the one task of each worker is, and that the slot of a worker whose task is past the moves
holds its counts of the current round.
-/

namespace P3arsec.Canneal

open P3arsec.Lib

/-- The counts of a temperature step. -/
structure CTask where
  /-- `accepted_good_moves`. -/
  acceptedGoodMoves : Int
  /-- `accepted_bad_moves`. -/
  acceptedBadMoves : Int
  deriving DecidableEq, Repr

/-- The fields of the emitter. -/
structure Emitter where
  /-- `temp_steps_completed`. -/
  tempStepsCompleted : Nat
  /-- `activeWorkers`. -/
  activeWorkers : Nat
  /-- `tasksRcvd`. -/
  tasksRcvd : Nat
  /-- `_number_temp_steps`. -/
  numberTempSteps : Int
  /-- `_keep_going_global_flag`. -/
  keepGoingGlobalFlag : Bool
  /-- `_firstRun`. -/
  firstRun : Bool
  deriving DecidableEq, Repr

/-- What a call of the emitter sends. -/
inductive Reply where
  /-- One task to every worker. -/
  | broadcast
  /-- Nothing. -/
  | goOn
  /-- The end of the stream. -/
  | eos
  deriving DecidableEq, Repr

namespace Emitter

/-- The constructor. -/
def create (maxNumWorkers : Nat) (numberTempSteps : Int) : Emitter :=
  ⟨0, maxNumWorkers, 0, numberTempSteps, true, true⟩

/-- `Emitter::keep_going`. -/
def keepGoing (emitter : Emitter) (task : CTask) : Bool × Emitter :=
  if emitter.numberTempSteps = -1 then
    let rv := emitter.keepGoingGlobalFlag &&
      decide (task.acceptedGoodMoves > task.acceptedBadMoves)
    (rv, if rv then emitter else { emitter with keepGoingGlobalFlag := false })
  else
    (decide (emitter.tempStepsCompleted < emitter.numberTempSteps), emitter)

/-- The loop of `Emitter::svc` over the slots, which ends at the first test that fails. -/
def keepGoingAll (emitter : Emitter) : List CTask → Bool × Emitter
  | [] => (true, emitter)
  | task :: tasks =>
    match emitter.keepGoing task with
    | (true, emitter) => emitter.keepGoingAll tasks
    | (false, emitter) => (false, emitter)

/-- `Emitter::svc` with the slots of the workers. -/
def svc (emitter : Emitter) (allTasks : Nat → CTask) : Reply × Emitter :=
  if emitter.firstRun then
    (.broadcast, { emitter with firstRun := false })
  else if emitter.tasksRcvd + 1 = emitter.activeWorkers then
    match { emitter with tasksRcvd := 0, tempStepsCompleted := emitter.tempStepsCompleted + 1
        }.keepGoingAll ((List.range emitter.activeWorkers).map allTasks) with
    | (true, emitter) => (.broadcast, emitter)
    | (false, emitter) => (.eos, emitter)
  else
    (.goOn, { emitter with tasksRcvd := emitter.tasksRcvd + 1 })

/-- The counts of a worker allow another round: its good moves are more than its bad ones, or, for
a fixed number of steps, the steps are not yet completed. -/
def Passes (numberTempSteps : Int) (completed : Nat) (task : CTask) : Prop :=
  if numberTempSteps = -1 then task.acceptedGoodMoves > task.acceptedBadMoves
  else (completed : Int) < numberTempSteps

instance (numberTempSteps : Int) (completed : Nat) (task : CTask) :
    Decidable (Passes numberTempSteps completed task) := by
  unfold Passes
  infer_instance

/-- The test changes at most the flag, and with the flag set it is the test of the counts. -/
theorem keepGoing_spec (emitter : Emitter) (task : CTask) :
    (∃ flag, (emitter.keepGoing task).2 = { emitter with keepGoingGlobalFlag := flag }) ∧
    (emitter.keepGoingGlobalFlag = true →
      ((emitter.keepGoing task).1 = true ↔
        Passes emitter.numberTempSteps emitter.tempStepsCompleted task) ∧
      ((emitter.keepGoing task).1 = true → (emitter.keepGoing task).2 = emitter)) := by
  unfold keepGoing Passes
  split
  · refine ⟨?_, fun flag => ?_⟩
    · dsimp only
      split
      · exact ⟨_, rfl⟩
      · exact ⟨_, rfl⟩
    · simp only [flag, Bool.true_and, decide_eq_true_eq]
      exact ⟨trivial, fun passes => if_pos passes⟩
  · exact ⟨⟨_, rfl⟩, fun _ => by simp⟩

/-- The loop changes at most the flag, and with the flag set it tests the counts of all slots. -/
theorem keepGoingAll_spec (emitter : Emitter) (tasks : List CTask) :
    (∃ flag, (emitter.keepGoingAll tasks).2 = { emitter with keepGoingGlobalFlag := flag }) ∧
    (emitter.keepGoingGlobalFlag = true →
      ((emitter.keepGoingAll tasks).1 = true ↔
        ∀ task ∈ tasks, Passes emitter.numberTempSteps emitter.tempStepsCompleted task) ∧
      ((emitter.keepGoingAll tasks).1 = true → (emitter.keepGoingAll tasks).2 = emitter)) := by
  induction tasks generalizing emitter with
  | nil => exact ⟨⟨_, rfl⟩, fun _ => by simp [keepGoingAll]⟩
  | cons task tasks ih =>
    have one := emitter.keepGoing_spec task
    cases test : emitter.keepGoing task with
    | mk rv after =>
      rw [test] at one
      obtain ⟨⟨flag, changed⟩, passing⟩ := one
      cases rv with
      | true =>
        rw [keepGoingAll, test]
        dsimp only at changed passing ⊢
        obtain ⟨⟨last, rest⟩, tests⟩ := ih after
        refine ⟨⟨last, by rw [rest, changed]⟩, fun set => ?_⟩
        obtain ⟨passes, same⟩ := passing set
        have same := same rfl
        subst same
        simpa [passes.mp rfl] using tests set
      | false =>
        rw [keepGoingAll, test]
        dsimp only at changed passing ⊢
        refine ⟨⟨flag, changed⟩, fun set => ?_⟩
        have fails := (passing set).1
        simp only [Bool.false_eq_true, false_iff] at fails
        simp [fails]

/-- With the flag set the loop passes, without a change, where the counts of all slots do, and else
changes at most the flag. -/
theorem keepGoingAll_cases {emitter : Emitter} (set : emitter.keepGoingGlobalFlag = true)
    (allTasks : Nat → CTask) (nworkers : Nat) :
    (∀ t < nworkers, Passes emitter.numberTempSteps emitter.tempStepsCompleted (allTasks t)) ∧
        emitter.keepGoingAll ((List.range nworkers).map allTasks) = (true, emitter) ∨
      (∃ t < nworkers,
          ¬Passes emitter.numberTempSteps emitter.tempStepsCompleted (allTasks t)) ∧
        ∃ flag, emitter.keepGoingAll ((List.range nworkers).map allTasks) =
          (false, { emitter with keepGoingGlobalFlag := flag }) := by
  obtain ⟨⟨flag, changed⟩, tests⟩ :=
    emitter.keepGoingAll_spec ((List.range nworkers).map allTasks)
  obtain ⟨passes, same⟩ := tests set
  cases result : emitter.keepGoingAll ((List.range nworkers).map allTasks) with
  | mk rv after =>
    rw [result] at changed passes same
    cases rv with
    | true =>
      refine .inl ⟨fun t inside => ?_, congrArg (Prod.mk true) (same rfl)⟩
      exact passes.mp rfl _ (List.mem_map.mpr ⟨t, List.mem_range.mpr inside, rfl⟩)
    | false =>
      refine .inr ⟨?_, flag, congrArg (Prod.mk false) changed⟩
      by_contra all
      push Not at all
      have pass := passes.mpr fun task member => by
        obtain ⟨t, inside, rfl⟩ := List.mem_map.mp member
        exact all t (List.mem_range.mp inside)
      cases pass

end Emitter

/-- Where a worker is in `annealer_thread::svc`. -/
inductive Work where
  /-- Waiting for a task. -/
  | idle
  /-- In the moves of a temperature step. -/
  | moves
  /-- Behind the write of its slot. -/
  | written
  deriving DecidableEq, Repr

/-- A worker and its two channels. -/
structure Lane where
  /-- The number of tasks in its input channel. -/
  queue : Nat
  /-- Where the worker is. -/
  work : Work
  /-- The number of tasks in its feedback channel. -/
  feedback : Nat
  /-- The counts of the temperature steps that it has executed, the oldest first. -/
  executed : List CTask
  deriving DecidableEq, Repr

/-- The farm. -/
structure Farm where
  /-- The emitter. -/
  emitter : Emitter
  /-- `allTasks`. -/
  allTasks : Nat → CTask
  /-- The workers. -/
  lanes : Nat → Lane
  /-- The emitter has sent the end of the stream. -/
  ended : Bool

/-- What the scheduler can let happen. -/
inductive Event where
  /-- The first call of the emitter, which has no input. -/
  | first
  /-- A worker takes a task. -/
  | take (t : Nat)
  /-- A worker completes its moves and writes its slot. -/
  | write (t : Nat) (task : CTask)
  /-- A worker returns its task. -/
  | giveBack (t : Nat)
  /-- The emitter takes a task that a worker has returned. -/
  | receive (t : Nat)
  deriving DecidableEq, Repr

namespace Farm

/-- The farm before the first call of the emitter. -/
def create (nworkers : Nat) (numberTempSteps : Int) : Farm :=
  ⟨.create nworkers numberTempSteps, fun _ => ⟨0, -1⟩, fun _ => ⟨0, .idle, 0, []⟩, false⟩

/-- The farm with one lane changed. -/
def setLane (farm : Farm) (t : Nat) (lane : Lane) : Farm :=
  { farm with lanes := Function.update farm.lanes t lane }

/-- The farm after a call of the emitter. -/
def reply (farm : Farm) : Farm :=
  match farm.emitter.svc farm.allTasks with
  | (.broadcast, emitter) => { farm with
      emitter := emitter
      lanes := fun t =>
        if t < emitter.activeWorkers then { farm.lanes t with queue := (farm.lanes t).queue + 1 }
        else farm.lanes t }
  | (.goOn, emitter) => { farm with emitter := emitter }
  | (.eos, emitter) => { farm with emitter := emitter, ended := true }

variable (nworkers : Nat) (numberTempSteps : Int)

/-- One step. The emitter is not called any more when it has ended the stream. -/
inductive Step : Event → Farm → Farm → Prop where
  /-- The first call of the emitter. -/
  | first {farm : Farm} (begins : farm.emitter.firstRun = true) : Step .first farm farm.reply
  /-- A worker takes a task. -/
  | take {farm : Farm} (t : Nat) (inside : t < nworkers) (free : (farm.lanes t).work = .idle)
      (waiting : 0 < (farm.lanes t).queue) :
      Step (.take t) farm (farm.setLane t { farm.lanes t with
        queue := (farm.lanes t).queue - 1, work := .moves })
  /-- A worker completes its moves. -/
  | write {farm : Farm} (t : Nat) (task : CTask) (inside : t < nworkers)
      (busy : (farm.lanes t).work = .moves) :
      Step (.write t task) farm { farm.setLane t { farm.lanes t with
          work := .written, executed := (farm.lanes t).executed ++ [task] } with
        allTasks := Function.update farm.allTasks t task }
  /-- A worker returns its task. -/
  | giveBack {farm : Farm} (t : Nat) (inside : t < nworkers)
      (done : (farm.lanes t).work = .written) :
      Step (.giveBack t) farm (farm.setLane t { farm.lanes t with
        work := .idle, feedback := (farm.lanes t).feedback + 1 })
  /-- The emitter takes a returned task. -/
  | receive {farm : Farm} (t : Nat) (inside : t < nworkers) (open_ : farm.ended = false)
      (begun : farm.emitter.firstRun = false) (waiting : 0 < (farm.lanes t).feedback) :
      Step (.receive t) farm (farm.setLane t { farm.lanes t with
        feedback := (farm.lanes t).feedback - 1 }).reply

/-- A step of any kind. -/
def AnyStep (farm next : Farm) : Prop := ∃ event, Step nworkers event farm next

/-- The states that a run of the farm can reach. -/
def Reached : Farm → Prop :=
  Reachable (fun farm => farm = create nworkers numberTempSteps) (AnyStep nworkers)

/-- The task of a worker is not in flight, and the worker has executed a number of steps, of which
the slot holds the last one. -/
def Arrived (round : Nat) (slot : CTask) (lane : Lane) : Prop :=
  lane.queue = 0 ∧ lane.work = .idle ∧ lane.feedback = 0 ∧ lane.executed.length = round ∧
    lane.executed.getLast? = some slot

/-- The one task of a worker is in flight. -/
inductive InFlight (completed : Nat) (slot : CTask) : Lane → Prop where
  /-- It is in the input channel. -/
  | queued {executed : List CTask} (steps : executed.length = completed) :
      InFlight completed slot ⟨1, .idle, 0, executed⟩
  /-- The worker is in its moves. -/
  | moves {executed : List CTask} (steps : executed.length = completed) :
      InFlight completed slot ⟨0, .moves, 0, executed⟩
  /-- The worker has written its slot. -/
  | written {executed : List CTask} (steps : executed.length = completed + 1)
      (last : executed.getLast? = some slot) : InFlight completed slot ⟨0, .written, 0, executed⟩
  /-- It is in the feedback channel. -/
  | returned {executed : List CTask} (steps : executed.length = completed + 1)
      (last : executed.getLast? = some slot) : InFlight completed slot ⟨0, .idle, 1, executed⟩

/-- All tasks have arrived, and the slots hold the counts of the last steps of the workers. -/
def RoundOver (farm : Farm) (round : Nat) : Prop :=
  ∀ t < nworkers, Arrived round (farm.allTasks t) (farm.lanes t)

/-- The invariant. -/
inductive Inv (farm : Farm) : Prop where
  /-- Nothing has happened. -/
  | fresh (same : farm = create nworkers numberTempSteps)
  /-- Some tasks of the current round have arrived and all others are in flight. -/
  | round (completed : Nat) (arrived : Finset Nat)
      (emitter : farm.emitter = ⟨completed, nworkers, arrived.card, numberTempSteps, true, false⟩)
      (runs : farm.ended = false) (member : arrived ⊆ Finset.range nworkers)
      (home : ∀ t ∈ arrived, Arrived (completed + 1) (farm.allTasks t) (farm.lanes t))
      (away : ∀ t < nworkers, t ∉ arrived → InFlight completed (farm.allTasks t) (farm.lanes t))
  /-- The stream has ended. -/
  | ended (completed : Nat) (begun : farm.emitter.firstRun = false)
      (counted : farm.emitter.tempStepsCompleted = completed) (ends : farm.ended = true)
      (home : farm.RoundOver nworkers completed)

variable {nworkers numberTempSteps} {farm next : Farm} {event : Event} {completed received : Nat}

/-- The three outcomes of a call of the emitter in a round. -/
theorem reply_cases (emitter : farm.emitter =
      ⟨completed, nworkers, received, numberTempSteps, true, false⟩) :
    (received + 1 ≠ nworkers ∧ farm.reply = { farm with
      emitter := ⟨completed, nworkers, received + 1, numberTempSteps, true, false⟩ }) ∨
    (received + 1 = nworkers ∧
      (∀ t < nworkers, Emitter.Passes numberTempSteps (completed + 1) (farm.allTasks t)) ∧
      farm.reply = { farm with
        emitter := ⟨completed + 1, nworkers, 0, numberTempSteps, true, false⟩
        lanes := fun t =>
          if t < nworkers then { farm.lanes t with queue := (farm.lanes t).queue + 1 }
          else farm.lanes t }) ∨
    (received + 1 = nworkers ∧
      (∃ t < nworkers, ¬Emitter.Passes numberTempSteps (completed + 1) (farm.allTasks t)) ∧
      ∃ flag, farm.reply = { farm with
        emitter := ⟨completed + 1, nworkers, 0, numberTempSteps, flag, false⟩
        ended := true }) := by
  by_cases full : received + 1 = nworkers
  · have called : farm.emitter.svc farm.allTasks =
        match Emitter.keepGoingAll ⟨completed + 1, nworkers, 0, numberTempSteps, true, false⟩
          ((List.range nworkers).map farm.allTasks) with
        | (true, emitter) => (.broadcast, emitter)
        | (false, emitter) => (.eos, emitter) := by
      rw [emitter, Emitter.svc, if_neg (by simp), if_pos full]
    rcases Emitter.keepGoingAll_cases (show
        (Emitter.mk (completed + 1) nworkers 0 numberTempSteps true false).keepGoingGlobalFlag =
          true
        from rfl) farm.allTasks nworkers with ⟨passes, result⟩ | ⟨fails, flag, result⟩
    · rw [result] at called
      exact .inr (.inl ⟨full, passes, by rw [reply, called]⟩)
    · rw [result] at called
      exact .inr (.inr ⟨full, fails, flag, by rw [reply, called]⟩)
  · refine .inl ⟨full, ?_⟩
    have called : farm.emitter.svc farm.allTasks =
        (.goOn, ⟨completed, nworkers, received + 1, numberTempSteps, true, false⟩) := by
      rw [emitter, Emitter.svc, if_neg (by simp), if_neg full]
    rw [reply, called]

/-- The lane of one worker changes. -/
@[simp] theorem lanes_setLane (farm : Farm) (t u : Nat) (lane : Lane) :
    (farm.setLane t lane).lanes u = if u = t then lane else farm.lanes u := by
  by_cases here : u = t
  · subst here
    simp [setLane]
  · simp [setLane, here]

/-- A lane's change is none of the emitter's. -/
@[simp] theorem emitter_setLane (farm : Farm) (t : Nat) (lane : Lane) :
    (farm.setLane t lane).emitter = farm.emitter := rfl

/-- A lane's change keeps the count of the tasks. -/
@[simp] theorem allTasks_setLane (farm : Farm) (t : Nat) (lane : Lane) :
    (farm.setLane t lane).allTasks = farm.allTasks := rfl

/-- A lane's change does not end the farm. -/
@[simp] theorem ended_setLane (farm : Farm) (t : Nat) (lane : Lane) :
    (farm.setLane t lane).ended = farm.ended := rfl

/-- The farm after the emitter has taken a task from the feedback channel of a worker. -/
def taken (farm : Farm) (t : Nat) : Farm :=
  farm.setLane t { farm.lanes t with feedback := (farm.lanes t).feedback - 1 }

/-- A worker whose task has arrived has nothing to do. -/
theorem Arrived.rest {slot : CTask} {lane : Lane} (home : Arrived completed slot lane) :
    lane.queue = 0 ∧ lane.work = .idle ∧ lane.feedback = 0 :=
  ⟨home.1, home.2.1, home.2.2.1⟩

/-- A task in a feedback channel is the one task of its worker, and it has not arrived. -/
theorem home_taken {arrived : Finset Nat} {t : Nat} (inside : t < nworkers)
    (home : ∀ u ∈ arrived, Arrived (completed + 1) (farm.allTasks u) (farm.lanes u))
    (away : ∀ u < nworkers, u ∉ arrived → InFlight completed (farm.allTasks u) (farm.lanes u))
    (waiting : 0 < (farm.lanes t).feedback) :
    t ∉ arrived ∧
    (∀ u ∈ insert t arrived,
      Arrived (completed + 1) ((farm.taken t).allTasks u) ((farm.taken t).lanes u)) ∧
    ∀ u < nworkers, u ∉ insert t arrived →
      InFlight completed ((farm.taken t).allTasks u) ((farm.taken t).lanes u) := by
  have fresh : t ∉ arrived := by
    intro known
    have rest := (home t known).rest
    omega
  refine ⟨fresh, fun u known => ?_, fun u known apart => ?_⟩
  · rw [taken, lanes_setLane, allTasks_setLane]
    by_cases here : u = t
    · subst here
      rw [if_pos rfl]
      have flight := away u inside fresh
      cases lane : farm.lanes u with
      | mk queue work feedback executed =>
        rw [lane] at flight waiting
        cases flight with
        | returned steps last => exact ⟨rfl, rfl, rfl, steps, last⟩
        | _ => simp at waiting
    · rw [if_neg here]
      exact home u ((Finset.mem_insert.mp known).resolve_left here)
  · rw [Finset.mem_insert, not_or] at apart
    rw [taken, lanes_setLane, allTasks_setLane, if_neg apart.1]
    exact away u known apart.2

/-- When the tasks of all workers have arrived, the round is over. -/
theorem roundOver_taken {arrived : Finset Nat} {t : Nat} (inside : t < nworkers)
    (member : arrived ⊆ Finset.range nworkers)
    (home : ∀ u ∈ arrived, Arrived (completed + 1) (farm.allTasks u) (farm.lanes u))
    (away : ∀ u < nworkers, u ∉ arrived → InFlight completed (farm.allTasks u) (farm.lanes u))
    (waiting : 0 < (farm.lanes t).feedback) (full : arrived.card + 1 = nworkers) :
    (farm.taken t).RoundOver nworkers (completed + 1) := by
  obtain ⟨fresh, home, -⟩ := home_taken inside home away waiting
  have all : insert t arrived = Finset.range nworkers := by
    apply Finset.eq_of_subset_of_card_le
    · exact Finset.insert_subset (Finset.mem_range.mpr inside) member
    · rw [Finset.card_insert_of_notMem fresh, Finset.card_range, full]
  intro u known
  exact home u (all ▸ Finset.mem_range.mpr known)

/-- After the last task of a round every worker has one task of the next round. -/
theorem inFlight_broadcast {slot : CTask} {lane : Lane} (home : Arrived completed slot lane) :
    InFlight completed slot { lane with queue := lane.queue + 1 } := by
  obtain ⟨queue, work, feedback, executed⟩ := lane
  obtain ⟨rfl, rfl, rfl, steps, -⟩ := home
  exact .queued steps

/-- The step of one worker whose task is in flight keeps the invariant. -/
theorem inv_setLane {arrived : Finset Nat} {t : Nat} {lane : Lane} {slots : Nat → CTask}
    (emitter : farm.emitter = ⟨completed, nworkers, arrived.card, numberTempSteps, true, false⟩)
    (runs : farm.ended = false) (member : arrived ⊆ Finset.range nworkers)
    (home : ∀ u ∈ arrived, Arrived (completed + 1) (farm.allTasks u) (farm.lanes u))
    (away : ∀ u < nworkers, u ∉ arrived → InFlight completed (farm.allTasks u) (farm.lanes u))
    (fresh : t ∉ arrived) (others : ∀ u, u ≠ t → slots u = farm.allTasks u)
    (flight : InFlight completed (slots t) lane) :
    Inv nworkers numberTempSteps { farm.setLane t lane with allTasks := slots } := by
  refine .round completed arrived emitter runs member (fun u known => ?_) fun u known apart => ?_
  · have away : u ≠ t := fun here => fresh (here ▸ known)
    show Arrived _ (slots u) ((farm.setLane t lane).lanes u)
    rw [lanes_setLane, if_neg away, others u away]
    exact home u known
  · show InFlight _ (slots u) ((farm.setLane t lane).lanes u)
    rw [lanes_setLane]
    by_cases here : u = t
    · subst here
      rw [if_pos rfl]
      exact flight
    · rw [if_neg here, others u here]
      exact away u known apart

/-- Every step keeps the invariant. -/
theorem Inv.step (inv : Inv nworkers numberTempSteps farm) (moves : Step nworkers event farm next) :
    Inv nworkers numberTempSteps next := by
  cases inv with
  | fresh same =>
    subst same
    cases moves with
    | first begins =>
      refine .round 0 ∅ rfl rfl (Finset.empty_subset _) (by simp) fun t inside _ => ?_
      have lane : (create nworkers numberTempSteps).reply.lanes t = ⟨1, .idle, 0, []⟩ :=
        if_pos inside
      rw [lane]
      exact .queued rfl
    | take t inside free waiting => simp [create] at waiting
    | write t task inside busy => simp [create] at busy
    | giveBack t inside done => simp [create] at done
    | receive t inside open_ begun waiting => simp [create] at waiting
  | round completed arrived emitter runs member home away =>
    -- a worker that can step has its task in flight
    have fresh : ∀ t, ¬((farm.lanes t).queue = 0 ∧ (farm.lanes t).work = .idle ∧
        (farm.lanes t).feedback = 0) → t ∉ arrived :=
      fun t busy known => busy (home t known).rest
    cases moves with
    | first begins => simp [emitter] at begins
    | take t inside free waiting =>
      have apart := fresh t fun rest => by omega
      apply inv_setLane emitter runs member home away apart (fun _ _ => rfl)
      have flight := away t inside apart
      cases lane : farm.lanes t with
      | mk queue work feedback executed =>
        rw [lane] at flight waiting free
        cases flight with
        | queued steps => exact .moves steps
        | moves steps => simp at free
        | written steps last => simp at free
        | returned steps last => simp at waiting
    | write t task inside busy =>
      have apart := fresh t fun rest => by simp [rest.2.1] at busy
      refine inv_setLane emitter runs member home away apart
        (fun u away => Function.update_of_ne away _ _) ?_
      have flight := away t inside apart
      rw [Function.update_self]
      cases lane : farm.lanes t with
      | mk queue work feedback executed =>
        rw [lane] at flight busy
        cases flight with
        | moves steps => exact .written (by simp [steps]) (by simp)
        | _ => simp at busy
    | giveBack t inside done =>
      have apart := fresh t fun rest => by simp [rest.2.1] at done
      apply inv_setLane emitter runs member home away apart (fun _ _ => rfl)
      have flight := away t inside apart
      cases lane : farm.lanes t with
      | mk queue work feedback executed =>
        rw [lane] at flight done
        cases flight with
        | written steps last => exact .returned steps last
        | _ => simp at done
    | receive t inside open_ begun waiting =>
      obtain ⟨apart, homes, aways⟩ := home_taken inside home away waiting
      have same : (farm.taken t).emitter =
          ⟨completed, nworkers, arrived.card, numberTempSteps, true, false⟩ := emitter
      show Inv _ _ (farm.taken t).reply
      rcases reply_cases same with ⟨-, called⟩ | ⟨full, -, called⟩ | ⟨full, -, flag, called⟩
      · rw [called]
        refine .round completed (insert t arrived) ?_ runs
          (Finset.insert_subset (Finset.mem_range.mpr inside) member) homes aways
        rw [Finset.card_insert_of_notMem apart]
      · have settled := roundOver_taken inside member home away waiting full
        rw [called]
        refine .round (completed + 1) ∅ rfl runs (Finset.empty_subset _) (by simp) ?_
        intro u known _
        dsimp only
        rw [if_pos known]
        exact inFlight_broadcast (settled u known)
      · have settled := roundOver_taken inside member home away waiting full
        rw [called]
        exact .ended (completed + 1) rfl rfl rfl settled
  | ended completed begun counted ends home =>
    cases moves with
    | first begins => simp [begun] at begins
    | take t inside free waiting =>
      have rest := (home t inside).rest
      omega
    | write t task inside busy => simp [(home t inside).rest] at busy
    | giveBack t inside done => simp [(home t inside).rest] at done
    | receive t inside open_ begun waiting => simp [ends] at open_

/-- The invariant holds in every reached state. -/
theorem Reached.inv (reached : Reached nworkers numberTempSteps farm) :
    Inv nworkers numberTempSteps farm := by
  apply Reachable.invariant ?_ ?_ reached
  · exact fun _ same => .fresh same
  · rintro farm next inv ⟨event, moves⟩
    exact inv.step moves

/-- The emitter takes the last task of a round. -/
def RoundEnds (nworkers : Nat) (farm : Farm) (event : Event) (t : Nat) : Prop :=
  event = .receive t ∧ farm.emitter.tasksRcvd + 1 = nworkers

/-- In a round a worker has executed the steps of the completed rounds and at most one more. -/
theorem Inv.executed (inv : Inv nworkers numberTempSteps farm) {t : Nat} (inside : t < nworkers) :
    (farm.lanes t).executed.length = farm.emitter.tempStepsCompleted ∨
    (farm.lanes t).executed.length = farm.emitter.tempStepsCompleted + 1 := by
  cases inv with
  | fresh same =>
    subst same
    exact .inl rfl
  | round completed arrived emitter runs member home away =>
    rw [emitter]
    by_cases known : t ∈ arrived
    · exact .inr (home t known).2.2.2.1
    · have flight := away t inside known
      cases lane : farm.lanes t with
      | mk queue work feedback executed =>
        rw [lane] at flight
        cases flight with
        | queued steps => exact .inl steps
        | moves steps => exact .inl steps
        | written steps => exact .inr steps
        | returned steps => exact .inr steps
  | ended completed begun counted ends home =>
    rw [counted]
    exact .inl (home t inside).2.2.2.1

/-- What happens when the emitter takes the last task of a round. -/
theorem Inv.roundEnds {t : Nat} (inv : Inv nworkers numberTempSteps farm)
    (moves : Step nworkers event farm next) (last : RoundEnds nworkers farm event t) :
    (farm.taken t).RoundOver nworkers (farm.emitter.tempStepsCompleted + 1) ∧
    next.emitter.tempStepsCompleted = farm.emitter.tempStepsCompleted + 1 ∧
    (next.ended = true ↔ ∃ u < nworkers, ¬Emitter.Passes numberTempSteps
      (farm.emitter.tempStepsCompleted + 1) (farm.allTasks u)) ∧
    (next.ended = true → next.RoundOver nworkers (farm.emitter.tempStepsCompleted + 1)) ∧
    (next.ended = false →
      ∀ u < nworkers, next.lanes u = { (farm.taken t).lanes u with queue := 1 }) := by
  obtain ⟨rfl, full⟩ := last
  cases moves with
  | receive _ inside open_ begun waiting =>
  cases inv with
  | fresh same =>
    subst same
    simp [create] at waiting
  | ended completed begun counted ends home => simp [ends] at open_
  | round completed arrived emitter runs member home away =>
    have same : (farm.taken t).emitter =
        ⟨completed, nworkers, arrived.card, numberTempSteps, true, false⟩ := emitter
    rw [emitter] at full ⊢
    dsimp only at full ⊢
    have settled := roundOver_taken inside member home away waiting full
    refine ⟨settled, ?_⟩
    rw [show farm.setLane t { farm.lanes t with feedback := (farm.lanes t).feedback - 1 } =
      farm.taken t from rfl]
    rcases reply_cases same with ⟨less, -⟩ | ⟨-, passes, called⟩ | ⟨-, fails, flag, called⟩
    · exact absurd full less
    · rw [called]
      refine ⟨rfl, ⟨fun ends => ?_, ?_⟩, fun ends => ?_, fun _ u known => ?_⟩
      · exact absurd (ends.symm.trans runs) (by simp)
      · rintro ⟨u, known, fails⟩
        exact absurd (passes u known) fails
      · exact absurd (ends.symm.trans runs) (by simp)
      · dsimp only
        rw [if_pos known, (settled u known).rest.1]
    · rw [called]
      exact ⟨rfl, ⟨fun _ => fails, fun _ => rfl⟩, fun _ => settled, fun runs => by cases runs⟩

/-- What all other steps leave alone. -/
theorem Inv.goesOn (inv : Inv nworkers numberTempSteps farm)
    (moves : Step nworkers event farm next) (within : ∀ t, ¬RoundEnds nworkers farm event t) :
    next.emitter.tempStepsCompleted = farm.emitter.tempStepsCompleted ∧
    next.ended = farm.ended ∧
    (event ≠ .first → ∀ t, (next.lanes t).queue ≤ (farm.lanes t).queue) := by
  cases moves with
  | first begins =>
    have called : farm.emitter.svc farm.allTasks =
        (.broadcast, { farm.emitter with firstRun := false }) := if_pos begins
    rw [reply, called]
    exact ⟨rfl, rfl, fun other => absurd rfl other⟩
  | take t inside free waiting =>
    refine ⟨rfl, rfl, fun _ u => ?_⟩
    rw [lanes_setLane]
    split
    · subst u
      exact Nat.sub_le _ _
    · exact le_rfl
  | write t task inside busy =>
    refine ⟨rfl, rfl, fun _ u => ?_⟩
    show ((farm.setLane t _).lanes u).queue ≤ _
    rw [lanes_setLane]
    split
    · subst u
      exact le_rfl
    · exact le_rfl
  | giveBack t inside done =>
    refine ⟨rfl, rfl, fun _ u => ?_⟩
    rw [lanes_setLane]
    split
    · subst u
      exact le_rfl
    · exact le_rfl
  | receive t inside open_ begun waiting =>
    cases inv with
    | fresh same =>
      subst same
      simp [create] at waiting
    | ended completed begun counted ends home => simp [ends] at open_
    | round completed arrived emitter runs member home away =>
      have less : arrived.card + 1 ≠ nworkers := by
        have here := within t
        simpa [RoundEnds, emitter] using here
      have same : (farm.taken t).emitter =
          ⟨completed, nworkers, arrived.card, numberTempSteps, true, false⟩ := emitter
      rw [show farm.setLane t { farm.lanes t with feedback := (farm.lanes t).feedback - 1 } =
        farm.taken t from rfl]
      rcases reply_cases same with ⟨-, called⟩ | ⟨full, -⟩ | ⟨full, -⟩
      · rw [called, emitter]
        refine ⟨rfl, rfl, fun _ u => ?_⟩
        show ((farm.taken t).lanes u).queue ≤ _
        rw [taken, lanes_setLane]
        split
        · subst u
          exact le_rfl
        · exact le_rfl
      · exact absurd full less
      · exact absurd full less

end Farm

/-- In every round every worker executes exactly one temperature step. The emitter decides when it
takes the last task of a round: at that moment no task is in flight, every worker has executed as
many steps as rounds are then completed, and the slots hold the counts of its last step. It ends
the stream if and only if a test of these counts fails, and then no task is in flight; otherwise
it sends one task to every worker. No other step counts a round, ends the stream or, behind the
first call, sends a task to a worker. -/
theorem rounds {nworkers : Nat} {numberTempSteps : Int} {farm next : Farm} {event : Event}
    (reached : Farm.Reached nworkers numberTempSteps farm)
    (moves : Farm.Step nworkers event farm next) :
    (∀ t < nworkers, (farm.lanes t).executed.length = farm.emitter.tempStepsCompleted ∨
      (farm.lanes t).executed.length = farm.emitter.tempStepsCompleted + 1) ∧
    (∀ t, Farm.RoundEnds nworkers farm event t →
      (farm.taken t).RoundOver nworkers (farm.emitter.tempStepsCompleted + 1) ∧
      next.emitter.tempStepsCompleted = farm.emitter.tempStepsCompleted + 1 ∧
      (next.ended = true ↔ ∃ u < nworkers, ¬Emitter.Passes numberTempSteps
        (farm.emitter.tempStepsCompleted + 1) (farm.allTasks u)) ∧
      (next.ended = true → next.RoundOver nworkers (farm.emitter.tempStepsCompleted + 1)) ∧
      (next.ended = false →
        ∀ u < nworkers, next.lanes u = { (farm.taken t).lanes u with queue := 1 })) ∧
    ((∀ t, ¬Farm.RoundEnds nworkers farm event t) →
      next.emitter.tempStepsCompleted = farm.emitter.tempStepsCompleted ∧
      next.ended = farm.ended ∧
      (event ≠ .first → ∀ t, (next.lanes t).queue ≤ (farm.lanes t).queue)) :=
  ⟨fun _ inside => reached.inv.executed inside, fun _ last => reached.inv.roundEnds moves last,
    reached.inv.goesOn moves⟩

/-- Two workers before the last task of their second round comes back. -/
theorem exists_second_round : ∃ farm, Farm.Reached 2 2 farm ∧
    farm.ended = false ∧ farm.emitter.firstRun = false ∧ 0 < (farm.lanes 0).feedback ∧
    Farm.RoundEnds 2 farm (.receive 0) 0 ∧ farm.emitter.tempStepsCompleted = 1 ∧
    ¬Emitter.Passes 2 2 (farm.allTasks 0) := by
  -- in the first round worker 0 is faster, in the second one worker 1
  have begun : Farm.Reached 2 2 _ := .step (.start rfl) ⟨_, .first rfl⟩
  have taken := (begun.step ⟨_, .take 0 (by decide) rfl (by decide)⟩).step
    ⟨_, .take 1 (by decide) rfl (by decide)⟩
  have written := (taken.step ⟨_, .write 0 ⟨3, 1⟩ (by decide) rfl⟩).step
    ⟨_, .write 1 ⟨2, 1⟩ (by decide) rfl⟩
  have returned := (written.step ⟨_, .giveBack 0 (by decide) rfl⟩).step
    ⟨_, .giveBack 1 (by decide) rfl⟩
  have next := (returned.step ⟨_, .receive 0 (by decide) rfl rfl (by decide)⟩).step
    ⟨_, .receive 1 (by decide) rfl rfl (by decide)⟩
  have taken := (next.step ⟨_, .take 1 (by decide) rfl (by decide)⟩).step
    ⟨_, .take 0 (by decide) rfl (by decide)⟩
  have written := (taken.step ⟨_, .write 1 ⟨1, 2⟩ (by decide) rfl⟩).step
    ⟨_, .write 0 ⟨2, 0⟩ (by decide) rfl⟩
  have returned := (written.step ⟨_, .giveBack 1 (by decide) rfl⟩).step
    ⟨_, .giveBack 0 (by decide) rfl⟩
  exact ⟨_, returned.step ⟨_, .receive 1 (by decide) rfl rfl (by decide)⟩, rfl, rfl, by decide,
    ⟨rfl, rfl⟩, rfl, by decide⟩

/-- The second round of two workers with two temperature steps ends the stream. -/
theorem rounds_sample : ∃ farm next : Farm, Farm.Step 2 (.receive 0) farm next ∧
    (farm.taken 0).RoundOver 2 2 ∧ next.ended = true := by
  obtain ⟨farm, returned, runs, begun, waiting, ends, counted, fails⟩ := exists_second_round
  have moves := Farm.Step.receive 0 Nat.two_pos runs begun waiting
  have settled := (rounds returned moves).2.1 0 ends
  rw [counted] at settled
  exact ⟨_, _, moves, settled.1, settled.2.2.1.mpr ⟨0, by decide, fails⟩⟩

end P3arsec.Canneal
