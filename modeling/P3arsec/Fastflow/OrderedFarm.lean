import Mathlib

/-!
# The ordered farm of FastFlow

The emitter of `ff_ofarm` gives the tasks to the workers in turn, and the collector takes the
results from the workers in turn. At the end of the stream the emitter sends it to every worker,
each worker passes it on, and the collector marks the worker as dead and does not turn to it any
more.

A worker gives one result for each task. It may have a state of its own, and the result need not be
a function of the task and the state.

What the farm is for is said without queues and turns by `InOrder`: each worker serves its tasks in
order, and the results are taken in the order of the tasks.
-/

namespace P3arsec.Fastflow

/-- A worker of the farm. `none` is the end of the stream. -/
inductive OfarmWorker (α β : Type*) where
  /-- Waiting for a message. -/
  | waiting
  /-- In `svc`. -/
  | working (task : α)
  /-- About to push a message. -/
  | pushing (message : Option β)
  /-- It has pushed the end of the stream. -/
  | done

/-- `ofarmE` with its load balancer. -/
structure OfarmE (α : Type*) where
  /-- `nextone`, which is also the `victim` of the load balancer. -/
  nextone : Nat
  /-- The tasks that are not sent. -/
  tasks : List α
  /-- The workers to which the end of the stream is not sent, where the broadcast has begun. -/
  ending : Option (List Nat)

/-- `ofarmC` with its gatherer. -/
structure OfarmC (β : Type*) where
  nextone : Nat
  victim : Nat
  dead : Nat → Bool
  neos : Nat
  /-- What was given to the filter. -/
  collected : List β

/-- `ff_ofarm`. -/
structure Ofarm (α β σ : Type*) where
  running : Nat
  /-- The number of entries of a queue, where the queues are not unbounded. -/
  entries : Option Nat
  E : OfarmE α
  inBuffer : Nat → List (Option α)
  worker : Nat → OfarmWorker α β
  /-- The states of the nodes that the workers run. -/
  state : Nat → σ
  outBuffer : Nat → List (Option β)
  C : OfarmC β

variable {α β σ : Type*}

/-- The order of `broadcast_task`. -/
def broadcastOrder (victim running : Nat) : List Nat :=
  List.range' victim (running - victim) ++ List.range victim

namespace OfarmC

/-- `set_victim`. -/
def setVictim (c : OfarmC β) (v : Nat) : Bool × OfarmC β :=
  if c.dead v then (false, c) else (true, { c with victim := v })

/-- The loop of `svc` that turns to the next worker. It comes back to a worker that is not dead. -/
def turn (running : Nat) : Nat → OfarmC β → OfarmC β
  | 0, c => c
  | fuel + 1, c =>
    let next := (c.nextone + 1) % running
    match { c with nextone := next }.setVictim next with
    | (true, c) => c
    | (false, c) => turn running fuel c

/-- `ofarmC::svc`. -/
def svc (c : OfarmC β) (running : Nat) (task : β) : OfarmC β :=
  turn running running { c with collected := c.collected ++ [task] }

/-- `ofarmC::eosnotify`, and the gatherer counts the worker. -/
def eosnotify (c : OfarmC β) (running id : Nat) : OfarmC β :=
  let c := { c with dead := Function.update c.dead id true, neos := c.neos + 1 }
  if c.nextone = id then
    let next := (c.nextone + 1) % running
    ({ c with nextone := next }.setVictim next).2
  else c

end OfarmC

namespace Ofarm

/-- `ff_ofarm::ff_ofarm`. -/
def make (running : Nat) (entries : Option Nat) (state : Nat → σ) : Ofarm α β σ where
  running := running
  entries := entries
  E := { nextone := 0, tasks := [], ending := some [] }
  inBuffer _ := []
  worker _ := .done
  state := state
  outBuffer _ := []
  C := { nextone := 0, victim := 0, dead := fun _ => false, neos := 0, collected := [] }

/-- `svc_init` of the emitter and of the collector, before a run on some tasks. -/
def svcInit (f : Ofarm α β σ) (tasks : List α) : Ofarm α β σ where
  running := f.running
  entries := f.entries
  E := { nextone := f.E.nextone, tasks := tasks, ending := none }
  inBuffer := f.inBuffer
  worker _ := .waiting
  state := f.state
  outBuffer := f.outBuffer
  C := { nextone := f.C.nextone, victim := f.C.nextone, dead := fun _ => false, neos := 0,
         collected := [] }

/-- Whether a message can be put into a queue. -/
def room {μ : Type*} (f : Ofarm α β σ) (buffer : List μ) : Bool :=
  match f.entries with
  | none => true
  | some entries => buffer.length < entries

/-- A step of the emitter, of a worker or of the collector. A worker in some state gives a result
for a task and has a new state. -/
inductive Step (gives : Nat → σ → α → β → σ → Prop) :
    Ofarm α β σ → Ofarm α β σ → Prop where
  /-- The emitter sends a task to its victim. -/
  | send {f : Ofarm α β σ} {task : α} {tasks : List α} (going : f.E.ending = none)
      (first : f.E.tasks = task :: tasks) (room : f.room (f.inBuffer f.E.nextone)) :
      Step gives f { f with
        E := { f.E with nextone := (f.E.nextone + 1) % f.running, tasks := tasks }
        inBuffer := Function.update f.inBuffer f.E.nextone
          (f.inBuffer f.E.nextone ++ [some task]) }
  /-- There is no task any more. -/
  | finish {f : Ofarm α β σ} (going : f.E.ending = none) (none_left : f.E.tasks = []) :
      Step gives f { f with
        E := { f.E with ending := some (broadcastOrder f.E.nextone f.running) } }
  /-- The emitter sends the end of the stream to a worker. -/
  | pushEos {f : Ofarm α β σ} {i : Nat} {rest : List Nat} (ending : f.E.ending = some (i :: rest))
      (room : f.room (f.inBuffer i)) :
      Step gives f { f with
        E := { f.E with ending := some rest }
        inBuffer := Function.update f.inBuffer i (f.inBuffer i ++ [none]) }
  /-- A worker gets a message. It passes the end of the stream on. -/
  | pop {f : Ofarm α β σ} {i : Nat} {message : Option α} {rest : List (Option α)}
      (here : f.worker i = .waiting) (head : f.inBuffer i = message :: rest) :
      Step gives f { f with
        inBuffer := Function.update f.inBuffer i rest
        worker := Function.update f.worker i
          (message.elim (.pushing none) fun task => .working task) }
  /-- `svc` of a worker returns. -/
  | svc {f : Ofarm α β σ} {i : Nat} {task : α} {result : β} {next : σ}
      (here : f.worker i = .working task) (result_of : gives i (f.state i) task result next) :
      Step gives f { f with
        worker := Function.update f.worker i (.pushing (some result))
        state := Function.update f.state i next }
  /-- A worker pushes a message, and stops where it is the end of the stream. -/
  | push {f : Ofarm α β σ} {i : Nat} {message : Option β} (here : f.worker i = .pushing message)
      (room : f.room (f.outBuffer i)) :
      Step gives f { f with
        worker := Function.update f.worker i (message.elim .done fun _ => .waiting)
        outBuffer := Function.update f.outBuffer i (f.outBuffer i ++ [message]) }
  /-- The collector gets a result from its victim. -/
  | gather {f : Ofarm α β σ} {result : β} {rest : List (Option β)} (going : f.C.neos < f.running)
      (head : f.outBuffer f.C.victim = some result :: rest) :
      Step gives f { f with
        outBuffer := Function.update f.outBuffer f.C.victim rest
        C := f.C.svc f.running result }
  /-- The collector gets the end of the stream from its victim. -/
  | gatherEos {f : Ofarm α β σ} {rest : List (Option β)} (going : f.C.neos < f.running)
      (head : f.outBuffer f.C.victim = none :: rest) :
      Step gives f { f with
        outBuffer := Function.update f.outBuffer f.C.victim rest
        C := f.C.eosnotify f.running f.C.victim }

/-- The states of a farm between two runs. -/
inductive Reached (gives : Nat → σ → α → β → σ → Prop) : Ofarm α β σ → Prop where
  /-- The farm is made with at least one worker. -/
  | make {running : Nat} {entries : Option Nat} {state : Nat → σ} (positive : 0 < running) :
      Reached gives (make running entries state)
  /-- A run has ended. -/
  | run {f g : Ofarm α β σ} {tasks : List α} (reached : Reached gives f)
      (moves : Relation.ReflTransGen (Step gives) (f.svcInit tasks) g)
      (ended : g.C.neos = g.running) : Reached gives g

end Ofarm

/-- What an ordered farm does, whatever the workers wait for. -/
structure InOrder (β σ : Type*) where
  state : Nat → σ
  /-- The results of the tasks that have been served. -/
  results : Nat → Option β
  collected : List β

/-- No task has been served. -/
def InOrder.start (state : Nat → σ) : InOrder β σ := ⟨state, fun _ => none, []⟩

/-- A worker serves its next task, or the result of the next task is taken. -/
inductive InOrder.Step (gives : Nat → σ → α → β → σ → Prop) (worker : Nat → Nat) (tasks : List α) :
    InOrder β σ → InOrder β σ → Prop where
  | serve {a : InOrder β σ} {j : Nat} {task : α} {result : β} {next : σ}
      (given : tasks[j]? = some task) (ready : a.results j = none)
      (earlier : ∀ i < j, worker i = worker j → (a.results i).isSome = true)
      (result_of : gives (worker j) (a.state (worker j)) task result next) :
      Step gives worker tasks a { a with
        state := Function.update a.state (worker j) next
        results := Function.update a.results j (some result) }
  | collect {a : InOrder β σ} {result : β} (here : a.results a.collected.length = some result) :
      Step gives worker tasks a { a with collected := a.collected ++ [result] }

/-- The farm as the collector and the owners of the workers see it. -/
def Ofarm.seen (f : Ofarm α β σ) (results : Nat → Option β) : InOrder β σ :=
  ⟨f.state, results, f.C.collected⟩

end P3arsec.Fastflow
