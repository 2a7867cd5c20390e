import P3arsec.Canneal.Rounds

/-!
# Rounds under rethreading

In the version for Nornir the number of workers changes in the run. The runtime, which is taken as
it is documented, sends a broadcast to the workers that are active, and tells the emitter of a new
number only while rethreading is enabled. The emitter enables it when it has sent a broadcast, until
the first task of the round comes back. So the number changes between a broadcast and its returns,
and the test for the end of the round compares the returned tasks with the new number.

Where the number at the first return is that of the broadcast, the rounds are kept apart as in the
version with a fixed number (`rethreading_rounds`).
-/

namespace P3arsec.Canneal

/-- `Emitter::schedule` with the slots of the workers: what it sends, and whether rethreading is
enabled after the call. -/
def Emitter.schedule (emitter : Emitter) (allTasks : Nat → CTask) : Reply × Emitter × Bool :=
  if emitter.firstRun then
    (.broadcast, { emitter with firstRun := false }, false)
  else if emitter.tasksRcvd + 1 = emitter.activeWorkers then
    match { emitter with tasksRcvd := 0, tempStepsCompleted := emitter.tempStepsCompleted + 1
        }.keepGoingAll ((List.range emitter.activeWorkers).map allTasks) with
    | (true, emitter) => (.broadcast, emitter, true)
    | (false, emitter) => (.eos, emitter, false)
  else
    (.goOn, { emitter with tasksRcvd := emitter.tasksRcvd + 1 }, false)

/-- `Emitter::notifyRethreading`. -/
def Emitter.notifyRethreading (emitter : Emitter) (newn : Nat) : Emitter :=
  { emitter with activeWorkers := newn }

namespace Nornir

/-- The tasks of a worker, and its counts of the current round. -/
structure Lane where
  /-- The number of tasks that were sent to it and on which it has not computed. -/
  running : Nat
  /-- The number of tasks on the way to the emitter. -/
  returned : Nat
  /-- What it has counted since the last broadcast. -/
  counts : Option CTask
  deriving DecidableEq, Repr

/-- A round that has ended. -/
structure Round where
  /-- The number of workers that its broadcast was sent to. -/
  sent : Nat
  /-- The workers whose tasks had come back. -/
  arrived : Finset Nat
  /-- What the workers had counted since the broadcast. -/
  counts : Nat → Option CTask
  /-- Another round follows. -/
  goesOn : Bool

/-- The emitter, the runtime and the workers, with the history of the rounds. -/
structure Farm where
  /-- The emitter. -/
  emitter : Emitter
  /-- Rethreading is enabled. -/
  rethreading : Bool
  /-- The number of active workers. -/
  active : Nat
  /-- `allTasks`. -/
  allTasks : Nat → CTask
  /-- The workers. -/
  lanes : Nat → Lane
  /-- The emitter has ended the stream. -/
  ended : Bool
  /-- The number of workers that the last broadcast was sent to. -/
  sent : Nat
  /-- The workers whose tasks have come back since. -/
  arrived : Finset Nat
  /-- The rounds that have ended, the oldest first. -/
  rounds : List Round

/-- What the runtime can let happen. -/
inductive Event where
  /-- The first call of the emitter, which has no task. -/
  | first
  /-- A worker computes. -/
  | compute (t : Nat) (task : CTask)
  /-- The emitter is given a task that a worker has returned. -/
  | receive (t : Nat)
  /-- The number of workers changes. -/
  | rethread (newn : Nat)
  deriving DecidableEq, Repr

/-- The arguments of the constructor of the emitter. -/
structure Config where
  /-- `maxNumWorkers`. -/
  maxNumWorkers : Nat
  /-- There is a worker. -/
  positive : 0 < maxNumWorkers
  /-- `number_temp_steps`. -/
  numberTempSteps : Int

namespace Farm

/-- Before the first call all workers are active. -/
def create (config : Config) : Farm where
  emitter := .create config.maxNumWorkers config.numberTempSteps
  rethreading := true
  active := config.maxNumWorkers
  allTasks := fun _ => ⟨0, -1⟩
  lanes := fun _ => ⟨0, 0, none⟩
  ended := false
  sent := 0
  arrived := ∅
  rounds := []

/-- The farm with one lane changed. -/
def setLane (farm : Farm) (t : Nat) (lane : Lane) : Farm :=
  { farm with lanes := Function.update farm.lanes t lane }

/-- A broadcast of the runtime. -/
def broadcast (farm : Farm) : Farm :=
  { farm with
    lanes := fun t =>
      if t < farm.active then ⟨(farm.lanes t).running + 1, (farm.lanes t).returned, none⟩
      else { farm.lanes t with counts := none }
    sent := farm.active
    arrived := ∅ }

/-- A round ends. -/
def finish (farm : Farm) (goesOn : Bool) : Farm :=
  { farm with
    rounds := farm.rounds ++
      [⟨farm.sent, farm.arrived, fun t => (farm.lanes t).counts, goesOn⟩] }

/-- The farm after a call of the emitter. A broadcast or the end of the stream that is not the
answer to the first call ends a round. -/
def reply (farm : Farm) : Farm :=
  match farm.emitter.schedule farm.allTasks with
  | (.broadcast, emitter, enabled) =>
    let farm := if farm.emitter.firstRun then farm else farm.finish true
    { farm.broadcast with emitter := emitter, rethreading := enabled }
  | (.goOn, emitter, enabled) => { farm with emitter := emitter, rethreading := enabled }
  | (.eos, emitter, enabled) =>
    { farm.finish false with emitter := emitter, rethreading := enabled, ended := true }

/-- The emitter is given a task of a worker. -/
def taken (farm : Farm) (t : Nat) : Farm :=
  { farm.setLane t { farm.lanes t with returned := (farm.lanes t).returned - 1 } with
    arrived := insert t farm.arrived }

variable (config : Config)

/-- One step. -/
def step (event : Event) (farm : Farm) : Option Farm :=
  match event with
  | .first => if farm.emitter.firstRun then some farm.reply else none
  | .compute t task =>
    if 0 < (farm.lanes t).running then
      some { farm.setLane t
          ⟨(farm.lanes t).running - 1, (farm.lanes t).returned + 1, some task⟩ with
        allTasks := Function.update farm.allTasks t task }
    else none
  | .receive t =>
    if farm.ended = false ∧ farm.emitter.firstRun = false ∧ 0 < (farm.lanes t).returned then
      some (farm.taken t).reply
    else none
  | .rethread newn =>
    if farm.rethreading ∧ 0 < newn ∧ newn ≤ config.maxNumWorkers then
      some { farm with active := newn, emitter := farm.emitter.notifyRethreading newn }
    else none

/-- The emitter is given a task only when it knows of as many workers as the last broadcast was sent
to. -/
def Restored (event : Event) (farm : Farm) : Prop :=
  match event with
  | .receive _ => farm.emitter.activeWorkers = farm.sent
  | _ => True

instance (event : Event) (farm : Farm) : Decidable (Restored event farm) := by
  unfold Restored
  cases event <;> infer_instance

/-- The states of the runs. -/
def Reached : Farm → Prop :=
  Lib.Reachable (· = create config) fun farm next => ∃ event, step config event farm = some next

/-- The states of the runs in which the number of workers is restored before a task comes back. -/
def ReachedRestored : Farm → Prop :=
  Lib.Reachable (· = create config) fun farm next =>
    ∃ event, step config event farm = some next ∧ Restored event farm

/-- What the rounds are meant to be. -/
structure Rounds (farm : Farm) : Prop where
  /-- A round has ended when all tasks of its broadcast had come back. -/
  complete : ∀ round ∈ farm.rounds, round.arrived = Finset.range round.sent
  /-- All its workers had counted since its broadcast, and another round follows where the counts of
  all of them allow it. -/
  tested : ∀ i round, farm.rounds[i]? = some round →
    (∀ t < round.sent, (round.counts t).isSome) ∧
      (round.goesOn = true ↔ ∀ t < round.sent, ∀ task, round.counts t = some task →
        Emitter.Passes config.numberTempSteps (i + 1) task)
  /-- The ended rounds are counted. -/
  counted : farm.emitter.tempStepsCompleted = farm.rounds.length
  /-- While the emitter waits, a task of the last broadcast has not come back and is on its way. -/
  waits : farm.emitter.firstRun = false → farm.ended = false →
    ∃ t < farm.sent, t ∉ farm.arrived ∧
      0 < (farm.lanes t).running + (farm.lanes t).returned

/-- The ended rounds are as they are meant to be. -/
structure Past (rounds : List Round) : Prop where
  /-- All tasks had come back. -/
  complete : ∀ round ∈ rounds, round.arrived = Finset.range round.sent
  /-- The counts of all workers were tested. -/
  tested : ∀ i round, rounds[i]? = some round →
    (∀ t < round.sent, (round.counts t).isSome) ∧
      (round.goesOn = true ↔ ∀ t < round.sent, ∀ task, round.counts t = some task →
        Emitter.Passes config.numberTempSteps (i + 1) task)

/-- The task of a worker of the broadcast is on its way. -/
inductive InFlight (slot : CTask) : Lane → Prop where
  /-- The worker has not computed. -/
  | running : InFlight slot ⟨1, 0, none⟩
  /-- The worker has left its counts in its slot. -/
  | returned : InFlight slot ⟨0, 1, some slot⟩

/-- The tasks of a round: some have come back, the others are on their way. -/
structure Open (farm : Farm) : Prop where
  /-- The broadcast went to a worker. -/
  some_ : 0 < farm.sent
  /-- Only workers of the broadcast have tasks. -/
  member : farm.arrived ⊆ Finset.range farm.sent
  /-- The slot of a worker whose task has come back holds its counts. -/
  home : ∀ t ∈ farm.arrived, farm.lanes t = ⟨0, 0, some (farm.allTasks t)⟩
  /-- The others. -/
  away : ∀ t < farm.sent, t ∉ farm.arrived → InFlight (farm.allTasks t) (farm.lanes t)
  /-- The workers that the broadcast was not sent to have no task. -/
  apart : ∀ t, farm.sent ≤ t → (farm.lanes t).running = 0 ∧ (farm.lanes t).returned = 0

/-- The invariant of the runs in which the number of workers is restored. -/
inductive Inv (farm : Farm) : Prop where
  /-- The emitter was not called. -/
  | fresh (emitter : farm.emitter = ⟨0, farm.active, 0, config.numberTempSteps, true, true⟩)
      (some_ : 0 < farm.active) (runs : farm.ended = false)
      (lanes : farm.lanes = fun _ => ⟨0, 0, none⟩) (rounds : farm.rounds = [])
  /-- A round is open. -/
  | round (emitter : farm.emitter = ⟨farm.rounds.length, farm.active, farm.arrived.card,
        config.numberTempSteps, true, false⟩)
      (some_ : 0 < farm.active) (runs : farm.ended = false) (past : Past config farm.rounds)
      (tasks : farm.Open) (waits : farm.arrived.card < farm.sent)
  /-- The stream has ended. -/
  | ended (begun : farm.emitter.firstRun = false)
      (counted : farm.emitter.tempStepsCompleted = farm.rounds.length) (ends : farm.ended = true)
      (past : Past config farm.rounds)

variable {config} {farm next : Farm} {event : Event}

/-- The lane of one worker changes. -/
@[simp] theorem lanes_setLane (t u : Nat) (lane : Lane) :
    (farm.setLane t lane).lanes u = if u = t then lane else farm.lanes u := by
  by_cases here : u = t
  · subst here
    simp [setLane]
  · simp [setLane, here]

/-- A round is entered when it is finished. -/
theorem length_finish (farm : Farm) (goesOn : Bool) :
    (farm.finish goesOn).rounds.length = farm.rounds.length + 1 := by
  rw [finish, List.length_append, List.length_singleton]

/-- A round with a task missing has a task on its way. -/
theorem Open.waits (tasks : farm.Open) (missing : farm.arrived.card < farm.sent) :
    ∃ t < farm.sent, t ∉ farm.arrived ∧
      0 < (farm.lanes t).running + (farm.lanes t).returned := by
  obtain ⟨t, inside, fresh⟩ : ∃ t ∈ Finset.range farm.sent, t ∉ farm.arrived := by
    by_contra all
    push Not at all
    have most := Finset.card_le_card (show Finset.range farm.sent ⊆ farm.arrived from all)
    rw [Finset.card_range] at most
    omega
  have known := Finset.mem_range.mp inside
  refine ⟨t, known, fresh, ?_⟩
  have flight := tasks.away t known fresh
  cases lane : farm.lanes t with
  | mk running returned counts =>
    rw [lane] at flight
    cases flight with
    | running => exact Nat.one_pos
    | returned => exact Nat.one_pos

/-- The invariant says what the rounds are meant to be. -/
theorem Inv.toRounds (inv : Inv config farm) : farm.Rounds config := by
  cases inv with
  | fresh emitter some_ runs lanes rounds =>
    refine ⟨?_, ?_, ?_, ?_⟩
    · rw [rounds]
      simp
    · rw [rounds]
      simp
    · rw [rounds, emitter]
      rfl
    · intro begun
      rw [emitter] at begun
      cases begun
  | round emitter some_ runs past tasks waits =>
    exact ⟨past.complete, past.tested, by rw [emitter], fun _ _ => tasks.waits waits⟩
  | ended begun counted ends past =>
    refine ⟨past.complete, past.tested, counted, fun _ runs => ?_⟩
    rw [ends] at runs
    cases runs

/-- A broadcast to the active workers opens a round where no task is on its way. -/
theorem open_broadcast (some_ : 0 < farm.active)
    (rest : ∀ t, (farm.lanes t).running = 0 ∧ (farm.lanes t).returned = 0) :
    farm.broadcast.Open := by
  refine ⟨some_, Finset.empty_subset _, by simp [broadcast], ?_, ?_⟩
  · intro t inside _
    have lane : farm.broadcast.lanes t =
        ⟨(farm.lanes t).running + 1, (farm.lanes t).returned, none⟩ := if_pos inside
    rw [lane, (rest t).1, (rest t).2]
    exact .running
  · intro t outside
    have lane : farm.broadcast.lanes t = { farm.lanes t with counts := none } :=
      if_neg (Nat.not_lt.mpr outside)
    rw [lane]
    exact rest t

/-- A task that the emitter is given was missing, and the others are as before. -/
theorem open_taken (tasks : farm.Open) {t : Nat} (back : 0 < (farm.lanes t).returned) :
    t ∉ farm.arrived ∧ (farm.taken t).Open := by
  have inside : t < farm.sent := by
    by_contra outside
    have none_ := (tasks.apart t (Nat.le_of_not_lt outside)).2
    omega
  have fresh : t ∉ farm.arrived := by
    intro known
    rw [tasks.home t known] at back
    cases back
  refine ⟨fresh, tasks.some_, ?_, ?_, ?_, ?_⟩
  · exact Finset.insert_subset (Finset.mem_range.mpr inside) tasks.member
  · intro u known
    show (farm.setLane t _).lanes u = _
    rw [lanes_setLane]
    by_cases here : u = t
    · subst here
      rw [if_pos rfl]
      have flight := tasks.away u inside fresh
      cases lane : farm.lanes u with
      | mk running returned counts =>
        rw [lane] at flight back
        cases flight with
        | running => cases back
        | returned => rfl
    · rw [if_neg here]
      exact tasks.home u ((Finset.mem_insert.mp known).resolve_left here)
  · intro u known apart
    rw [show (farm.taken t).arrived = insert t farm.arrived from rfl, Finset.mem_insert,
      not_or] at apart
    show InFlight _ ((farm.setLane t _).lanes u)
    rw [lanes_setLane, if_neg apart.1]
    exact tasks.away u known apart.2
  · intro u outside
    show ((farm.setLane t _).lanes u).running = 0 ∧ ((farm.setLane t _).lanes u).returned = 0
    rw [lanes_setLane, if_neg (by
      rintro rfl
      exact absurd inside (Nat.not_lt.mpr outside))]
    exact tasks.apart u outside

/-- A worker that computes leaves its counts in its slot. -/
theorem open_compute (tasks : farm.Open) {t : Nat} (busy : 0 < (farm.lanes t).running)
    (task : CTask) :
    { farm.setLane t ⟨(farm.lanes t).running - 1, (farm.lanes t).returned + 1, some task⟩ with
      allTasks := Function.update farm.allTasks t task }.Open := by
  have inside : t < farm.sent := by
    by_contra outside
    have none_ := (tasks.apart t (Nat.le_of_not_lt outside)).1
    omega
  have fresh : t ∉ farm.arrived := by
    intro known
    rw [tasks.home t known] at busy
    cases busy
  refine ⟨tasks.some_, tasks.member, ?_, ?_, ?_⟩
  · intro u known
    have away : u ≠ t := fun here => fresh (here ▸ known)
    show (farm.setLane t _).lanes u = ⟨0, 0, some (Function.update farm.allTasks t task u)⟩
    rw [lanes_setLane, if_neg away, Function.update_of_ne away]
    exact tasks.home u known
  · intro u known apart
    show InFlight (Function.update farm.allTasks t task u) ((farm.setLane t _).lanes u)
    rw [lanes_setLane]
    by_cases here : u = t
    · subst here
      rw [if_pos rfl, Function.update_self]
      have flight := tasks.away u inside fresh
      cases lane : farm.lanes u with
      | mk running returned counts =>
        rw [lane] at flight busy
        cases flight with
        | running => exact .returned
        | returned => cases busy
    · rw [if_neg here, Function.update_of_ne here]
      exact tasks.away u known apart
  · intro u outside
    show ((farm.setLane t _).lanes u).running = 0 ∧ ((farm.setLane t _).lanes u).returned = 0
    rw [lanes_setLane, if_neg (by
      rintro rfl
      exact absurd inside (Nat.not_lt.mpr outside))]
    exact tasks.apart u outside

/-- When all tasks of an open round have come back, all workers have counted and none has a task. -/
theorem Open.over (tasks : farm.Open) (full : farm.arrived.card = farm.sent) :
    farm.arrived = Finset.range farm.sent ∧
      (∀ t < farm.sent, (farm.lanes t).counts = some (farm.allTasks t)) ∧
      ∀ t, (farm.lanes t).running = 0 ∧ (farm.lanes t).returned = 0 := by
  have all : farm.arrived = Finset.range farm.sent :=
    Finset.eq_of_subset_of_card_le tasks.member (by rw [Finset.card_range, full])
  have home : ∀ t < farm.sent, farm.lanes t = ⟨0, 0, some (farm.allTasks t)⟩ :=
    fun t inside => tasks.home t (all ▸ Finset.mem_range.mpr inside)
  refine ⟨all, fun t inside => by rw [home t inside], fun t => ?_⟩
  by_cases inside : t < farm.sent
  · rw [home t inside]
    exact ⟨rfl, rfl⟩
  · exact tasks.apart t (Nat.le_of_not_lt inside)

/-- A round that has ended after the return of all tasks is added to the past. -/
theorem past_finish (past : Past config farm.rounds) (tasks : farm.Open)
    (full : farm.arrived.card = farm.sent) {goesOn : Bool}
    (test : goesOn = true ↔ ∀ t < farm.sent,
      Emitter.Passes config.numberTempSteps (farm.rounds.length + 1) (farm.allTasks t)) :
    Past config (farm.finish goesOn).rounds := by
  obtain ⟨all, counted, -⟩ := tasks.over full
  refine ⟨?_, ?_⟩
  · intro round member
    rcases List.mem_append.mp member with member | member
    · exact past.complete round member
    · rw [List.mem_singleton.mp member]
      exact all
  · intro i round found
    rcases Nat.lt_trichotomy i farm.rounds.length with before | same | after
    · refine past.tested i round ?_
      rw [← found]
      exact (List.getElem?_append_left before).symm
    · subst same
      have last : (farm.finish goesOn).rounds[farm.rounds.length]? =
          some ⟨farm.sent, farm.arrived, fun t => (farm.lanes t).counts, goesOn⟩ :=
        List.getElem?_concat_length ..
      rw [last] at found
      cases found
      dsimp only
      refine ⟨fun t inside => by rw [counted t inside]; rfl, test.trans ?_⟩
      constructor
      · intro passes t inside task same
        rw [counted t inside] at same
        cases same
        exact passes t inside
      · exact fun passes t inside => passes t inside _ (counted t inside)
    · have none_ : (farm.finish goesOn).rounds[i]? = none :=
        List.getElem?_eq_none (by
          rw [show (farm.finish goesOn).rounds = farm.rounds ++ [_] from rfl, List.length_append,
            List.length_singleton]
          omega)
      rw [none_] at found
      cases found

/-- The three outcomes of a call of the emitter in a round whose number of workers is known. -/
theorem reply_cases {completed received : Nat} (emitter : farm.emitter =
      ⟨completed, farm.active, received, config.numberTempSteps, true, false⟩) :
    (received + 1 ≠ farm.active ∧ farm.reply = { farm with
      emitter := ⟨completed, farm.active, received + 1, config.numberTempSteps, true, false⟩
      rethreading := false }) ∨
    (received + 1 = farm.active ∧
      (∀ t < farm.active,
        Emitter.Passes config.numberTempSteps (completed + 1) (farm.allTasks t)) ∧
      farm.reply = { (farm.finish true).broadcast with
        emitter := ⟨completed + 1, farm.active, 0, config.numberTempSteps, true, false⟩
        rethreading := true }) ∨
    (received + 1 = farm.active ∧
      (∃ t < farm.active,
        ¬Emitter.Passes config.numberTempSteps (completed + 1) (farm.allTasks t)) ∧
      ∃ flag, farm.reply = { farm.finish false with
        emitter := ⟨completed + 1, farm.active, 0, config.numberTempSteps, flag, false⟩
        rethreading := false
        ended := true }) := by
  by_cases full : received + 1 = farm.active
  · have called : farm.emitter.schedule farm.allTasks =
        match Emitter.keepGoingAll
            ⟨completed + 1, farm.active, 0, config.numberTempSteps, true, false⟩
            ((List.range farm.active).map farm.allTasks) with
        | (true, emitter) => (.broadcast, emitter, true)
        | (false, emitter) => (.eos, emitter, false) := by
      rw [emitter, Emitter.schedule, if_neg (by simp), if_pos full]
    have begun : farm.emitter.firstRun = false := by rw [emitter]
    rcases Emitter.keepGoingAll_cases (show (Emitter.mk (completed + 1) farm.active 0
        config.numberTempSteps true false).keepGoingGlobalFlag = true from rfl)
        farm.allTasks farm.active with ⟨passes, result⟩ | ⟨fails, flag, result⟩
    · rw [result] at called
      refine .inr (.inl ⟨full, passes, ?_⟩)
      rw [reply, called]
      dsimp only
      rw [begun]
      rfl
    · rw [result] at called
      exact .inr (.inr ⟨full, fails, flag, by rw [reply, called]⟩)
  · have called : farm.emitter.schedule farm.allTasks = (.goOn,
        ⟨completed, farm.active, received + 1, config.numberTempSteps, true, false⟩, false) := by
      rw [emitter, Emitter.schedule, if_neg (by simp), if_neg full]
    exact .inl ⟨full, by rw [reply, called]⟩

/-- The first round begins. -/
theorem Inv.first (inv : Inv config farm) (moves : step config .first farm = some next) :
    Inv config next := by
  unfold Farm.step at moves
  dsimp only at moves
  split at moves
  · rename_i begins
    cases moves
    cases inv with
    | fresh emitter some_ runs lanes rounds =>
      have called : farm.reply = { farm.broadcast with
          emitter := ⟨0, farm.active, 0, config.numberTempSteps, true, false⟩
          rethreading := false } := by
        unfold reply Emitter.schedule
        rw [emitter]
        rfl
      have tasks := open_broadcast some_ fun t => by rw [lanes]; exact ⟨rfl, rfl⟩
      rw [called]
      refine .round ?_ some_ runs ?_ ⟨tasks.some_, tasks.member, tasks.home, tasks.away,
        tasks.apart⟩ some_
      · show _ = Emitter.mk farm.rounds.length _ _ _ _ _
        rw [rounds]
        rfl
      · show Past config farm.rounds
        rw [rounds]
        exact ⟨by simp, by simp⟩
    | round emitter => simp [emitter] at begins
    | ended begun => simp [begun] at begins
  · cases moves

/-- A worker does its task. -/
theorem Inv.compute {t : Nat} {task : CTask} (inv : Inv config farm)
    (moves : step config (.compute t task) farm = some next) : Inv config next := by
  unfold Farm.step at moves
  dsimp only at moves
  split at moves
  · rename_i busy
    cases moves
    cases inv with
    | fresh emitter some_ runs lanes rounds =>
      rw [lanes] at busy
      cases busy
    | round emitter some_ runs past tasks waits =>
      exact .round emitter some_ runs past (open_compute tasks busy task) waits
    | ended begun counted ends past => exact .ended begun counted ends past
  · cases moves

/-- The emitter receives the answer of a worker: it waits for others, or a round has ended, which
may be the last one. -/
theorem Inv.receive {t : Nat} (inv : Inv config farm)
    (moves : step config (.receive t) farm = some next) (restored : Restored (.receive t) farm) :
    Inv config next := by
  unfold Farm.step at moves
  dsimp only at moves
  split at moves
  · rename_i condition
    obtain ⟨open_, begun, back⟩ := condition
    cases moves
    cases inv with
    | fresh emitter => simp [emitter] at begun
    | round emitter some_ runs past tasks waits =>
      have same : farm.active = farm.sent := by
        have known : farm.emitter.activeWorkers = farm.sent := restored
        rw [emitter] at known
        exact known
      obtain ⟨fresh, tasks⟩ := open_taken tasks back
      have card : (farm.taken t).arrived.card = farm.arrived.card + 1 :=
        Finset.card_insert_of_notMem fresh
      rcases reply_cases (show (farm.taken t).emitter = _ from emitter) with
        ⟨more, called⟩ | ⟨full, passes, called⟩ | ⟨full, fails, flag, called⟩
      · rw [called]
        refine .round ?_ some_ runs past ⟨tasks.some_, tasks.member, tasks.home, tasks.away,
          tasks.apart⟩ ?_
        · exact congrArg (fun received => Emitter.mk _ _ received _ _ _) card.symm
        · show (farm.taken t).arrived.card < farm.sent
          have differs : farm.arrived.card + 1 ≠ farm.active := more
          omega
      · have count : farm.arrived.card + 1 = farm.active := full
        have all : (farm.taken t).arrived.card = (farm.taken t).sent :=
          card.trans (count.trans same)
        have tests : (true = true ↔ ∀ u < (farm.taken t).sent, Emitter.Passes
            config.numberTempSteps ((farm.taken t).rounds.length + 1)
              ((farm.taken t).allTasks u)) := by
          refine ⟨fun _ u inside => passes u ?_, fun _ => rfl⟩
          exact lt_of_lt_of_eq inside same.symm
        obtain ⟨-, -, rest⟩ := tasks.over all
        have next := open_broadcast (show 0 < ((farm.taken t).finish true).active from some_) rest
        rw [called]
        refine .round ?_ some_ runs
          (past_finish (show Past config (farm.taken t).rounds from past)
          tasks all tests) ⟨next.some_, next.member,
          next.home, next.away, next.apart⟩ some_
        exact congrArg (fun completed => Emitter.mk completed _ _ _ _ _)
          ((farm.taken t).length_finish true).symm
      · have count : farm.arrived.card + 1 = farm.active := full
        have all : (farm.taken t).arrived.card = (farm.taken t).sent :=
          card.trans (count.trans same)
        have tests : (false = true ↔ ∀ u < (farm.taken t).sent, Emitter.Passes
            config.numberTempSteps ((farm.taken t).rounds.length + 1)
              ((farm.taken t).allTasks u)) := by
          constructor
          · intro never
            cases never
          intro passes
          obtain ⟨u, inside, fails⟩ := fails
          exact absurd (passes u (lt_of_lt_of_eq inside same)) fails
        rw [called]
        refine .ended rfl ?_ rfl (past_finish (show Past config (farm.taken t).rounds from past)
          tasks all tests)
        exact ((farm.taken t).length_finish false).symm
    | ended begun counted ends => simp [ends] at open_
  · cases moves

/-- The number of workers changes. -/
theorem Inv.rethread {newn : Nat} (inv : Inv config farm)
    (moves : step config (.rethread newn) farm = some next) : Inv config next := by
  unfold Farm.step at moves
  dsimp only at moves
  split at moves
  · rename_i condition
    obtain ⟨-, positive, -⟩ := condition
    cases moves
    cases inv with
    | fresh emitter some_ runs lanes rounds =>
      refine .fresh ?_ positive runs lanes rounds
      show farm.emitter.notifyRethreading newn = _
      rw [emitter]
      rfl
    | round emitter some_ runs past tasks waits =>
      refine .round ?_ positive runs past ⟨tasks.some_, tasks.member, tasks.home, tasks.away,
        tasks.apart⟩ waits
      show farm.emitter.notifyRethreading newn = _
      rw [emitter]
      rfl
    | ended begun counted ends past => exact .ended begun counted ends past
  · cases moves

/-- Every step that meets the condition keeps the invariant. -/
theorem Inv.step (inv : Inv config farm) (moves : step config event farm = some next)
    (restored : Restored event farm) : Inv config next := by
  cases event with
  | first => exact inv.first moves
  | compute t task => exact inv.compute moves
  | receive t => exact inv.receive moves restored
  | rethread newn => exact inv.rethread moves

/-- The invariant holds in every run in which the number of workers is restored. -/
theorem ReachedRestored.inv (reached : ReachedRestored config farm) : Inv config farm := by
  induction reached with
  | start begins =>
    rw [begins]
    exact .fresh rfl config.positive rfl rfl rfl
  | step _ moves ih =>
    obtain ⟨event, moves, restored⟩ := moves
    exact ih.step moves restored

/-- In every run in which the emitter is given a task only when it knows of as many workers as the
last broadcast was sent to, a round ends exactly when the tasks of all its workers have come back,
their counts are tested, the rounds are counted, and the emitter waits only for a task that is on
its way. -/
theorem rethreading_rounds (reached : ReachedRestored config farm) : farm.Rounds config :=
  reached.inv.toRounds

section Sample

/-- Two workers and three temperature steps. -/
def double : Config := ⟨2, Nat.two_pos, 3⟩

/-- Two rounds. In the second one a worker is stopped, and works again before a task comes back. -/
def restoredEvents : List Event :=
  [.first, .compute 0 ⟨3, 1⟩, .compute 1 ⟨3, 1⟩, .receive 0, .receive 1, .rethread 1,
    .compute 0 ⟨3, 1⟩, .rethread 2, .compute 1 ⟨3, 1⟩, .receive 1, .receive 0]

/-- A step of a run in which the number of workers is restored. -/
def stepRestored (config : Config) (event : Event) (farm : Farm) : Option Farm :=
  if Restored event farm then step config event farm else none

/-- The events are a run of the restored farm. -/
theorem restored_run :
    ((restoredEvents.foldlM (fun farm event => stepRestored double event farm)
      (create double)).isSome) = true := by
  decide

/-- The rounds of two workers are right although one of them is stopped for a time. -/
theorem rethreading_rounds_sample :
    ((restoredEvents.foldlM (fun farm event => stepRestored double event farm)
      (create double)).get restored_run).Rounds double := by
  refine rethreading_rounds (Lib.Reachable.actions (fun event farm next moves => ?_) (.start rfl)
    (Option.some_get restored_run).symm)
  unfold stepRestored at moves
  split at moves
  · rename_i restored
    exact ⟨event, moves, restored⟩
  · cases moves

/-- In the second round one of two workers is stopped when the broadcast was sent. -/
def doubleEvents : List Event :=
  [.first, .compute 0 ⟨3, 1⟩, .compute 1 ⟨3, 1⟩, .receive 0, .receive 1, .rethread 1,
    .compute 0 ⟨3, 1⟩, .receive 0]

/-- The events are a run of the farm. -/
theorem double_run :
    (doubleEvents.foldlM (fun farm event => step double event farm) (create double)).isSome =
      true := by
  decide

/-- The second round ends when one of its two tasks has come back. -/
theorem rethreading_loses : ∃ farm, Reached double farm ∧ ¬farm.Rounds double := by
  refine ⟨_, Lib.Reachable.actions (fun event farm next moves => ⟨event, moves⟩) (.start rfl)
    (Option.some_get double_run).symm, fun rounds => ?_⟩
  have early : ∃ round ∈ ((doubleEvents.foldlM (fun farm event => step double event farm)
      (create double)).get double_run).rounds, round.arrived ≠ Finset.range round.sent := by
    decide
  obtain ⟨round, member, differs⟩ := early
  exact differs (rounds.complete round member)

end Sample

end Farm

end Nornir

end P3arsec.Canneal
