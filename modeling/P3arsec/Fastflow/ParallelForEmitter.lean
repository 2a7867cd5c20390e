import P3arsec.Fastflow.ParallelFor

/-!
# The scheduler thread of a parallel loop

Where there are more tasks than workers and a core is free, the emitter of the farm hands out the
tasks itself. It sends the first tasks to the workers, each of which gives a task back when it has
run it; the emitter then sends it the next one, of its own part or of the part with the most tasks,
or else an end-of-stream. It returns when `totaltasks` tasks have come back.
-/

namespace P3arsec.Fastflow

open P3arsec.Lib.Concurrent

/-- A message to a worker. -/
inductive Message where
  | task (start stop : Int)
  /-- `GO_OUT`, or `EOS_NOFREEZE` where the workers spin. -/
  | eos

namespace ForallScheduler

/-- `std::max_element` of the parts: the first one with the most tasks. -/
def maxElement (s : ForallScheduler) : Nat :=
  (List.range s.size).foldl (fun id i =>
    if (s.data id).ntask < (s.data i).ntask then i else id) 0

/-- The next chunk of a part is taken. -/
def takeTask (s : ForallScheduler) (id : Nat) : Message × ForallScheduler :=
  (.task (s.data id).start (s.next (s.data id)).1,
    { s with
      data := Function.update s.data id
        ⟨(s.data id).ntask - 1, (s.next (s.data id)).2, (s.data id).stop⟩ })

/-- `nextTask`. -/
def nextTask (s : ForallScheduler) (wid : Nat) : Option Message × ForallScheduler :=
  if (s.data wid).ntask ≠ 0 then (some (s.takeTask wid).1, (s.takeTask wid).2)
  else if 0 ≤ s.maxid ∧ (s.data s.maxid.toNat).ntask > 0 then
    (some (s.takeTask s.maxid.toNat).1, (s.takeTask s.maxid.toNat).2)
  else if (s.data s.maxElement).ntask > 0 then
    (some (s.takeTask s.maxElement).1, { (s.takeTask s.maxElement).2 with maxid := s.maxElement })
  else (none, { s with maxid := s.maxElement })

/-- `sendTask(false)`: a second task for each worker where there are many and none has run out. -/
def sendTwice (s : ForallScheduler) : List Task × ForallScheduler :=
  if ((List.range s.nw).all fun wid => decide ((s.data wid).ntask > 0)) ∧ s.totaltasks ≥ 4 * s.nw
  then (s.sendTask.1 ++ s.sendTask.2.sendTask.1, s.sendTask.2.sendTask.2)
  else s.sendTask

/-- The tasks before any has come back. Where the workers spin a round is sent before the emitter
starts. -/
def sendFirst (s : ForallScheduler) (spinwait : Bool) : List Task × ForallScheduler :=
  if spinwait then (s.sendTask.1 ++ s.sendTask.2.sendTwice.1, s.sendTask.2.sendTwice.2)
  else s.sendTwice

end ForallScheduler

/-- The emitter, its workers and the channels between them. -/
structure Emitter where
  /-- `totaltasks` counts the tasks that have not come back. -/
  sched : ForallScheduler
  /-- The workers to which the end of the stream was sent. -/
  eossent : Nat → Bool
  /-- Whether `svc` has returned `GO_OUT`. -/
  ended : Bool
  /-- The messages that a worker has not taken. -/
  queue : Nat → List Message
  /-- The number of tasks of a worker that are on their way back. -/
  back : Nat → Nat
  /-- The workers that have taken the end of the stream. -/
  stopped : Nat → Bool

namespace Emitter

/-- A message is sent to a worker. -/
def sendOutTo (e : Emitter) (message : Message) (wid : Nat) : Emitter :=
  { e with queue := Function.update e.queue wid (e.queue wid ++ [message]) }

/-- The end of the stream is sent to a worker that has not got it. -/
def sendEos (e : Emitter) (wid : Nat) : Emitter :=
  if e.eossent wid then e
  else { e.sendOutTo .eos wid with eossent := Function.update e.eossent wid true }

/-- `svc` for a task that came back from a worker. -/
def svc (e : Emitter) (wid : Nat) : Emitter :=
  let e' := { e with sched := { e.sched with totaltasks := e.sched.totaltasks - 1 } }
  if e'.sched.totaltasks ≤ 0 then { e'.sendEos wid with ended := true }
  else
    match e'.sched.nextTask wid with
    | (some message, s) => { e' with sched := s }.sendOutTo message wid
    | (none, s) => { e' with sched := s }.sendEos wid

/-- A step of a worker or of the emitter; a task that a worker runs is shown. -/
inductive Step : Emitter → Option Task → Emitter → Prop where
  /-- A worker runs a task and gives it back. -/
  | work {e : Emitter} {wid : Nat} {start stop : Int} {rest : List Message}
      (running : e.stopped wid = false) (first : e.queue wid = .task start stop :: rest) :
      Step e (some ⟨wid, start, stop⟩)
        { e with
          queue := Function.update e.queue wid rest
          back := Function.update e.back wid (e.back wid + 1) }
  /-- A worker takes the end of the stream. -/
  | stop {e : Emitter} {wid : Nat} {rest : List Message}
      (running : e.stopped wid = false) (first : e.queue wid = .eos :: rest) :
      Step e none
        { e with
          queue := Function.update e.queue wid rest
          stopped := Function.update e.stopped wid true }
  /-- The emitter gets a task from a worker. -/
  | receive {e : Emitter} {wid n : Nat} (running : e.ended = false)
      (some_back : e.back wid = n + 1) :
      Step e none ({ e with back := Function.update e.back wid n }.svc wid)

/-- The emitter when it has sent the first tasks. `eossent` is cleared for the workers that got
one. -/
def begin (s : ForallScheduler) (spinwait : Bool) (eossent : Nat → Bool) : Emitter where
  sched := (s.sendFirst spinwait).2
  eossent wid := if (s.sendFirst spinwait).1.any fun task => task.worker = wid then false
    else eossent wid
  ended := false
  queue wid := ((s.sendFirst spinwait).1.filter fun task => task.worker = wid).map fun task =>
    .task task.start task.stop
  back _ := 0
  stopped _ := false

end Emitter

end P3arsec.Fastflow
