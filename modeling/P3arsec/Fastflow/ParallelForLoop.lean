import P3arsec.Fastflow.ParallelForEmitter

/-!
# Parallel loops

A program runs one loop after another on one scheduler. A loop is run by the caller where one worker
is enough, by workers that take the tasks themselves, or with the scheduler thread.
-/

namespace P3arsec.Fastflow

open P3arsec.Lib.Concurrent

/-- A parallel loop of the program, with the number of workers that it asks for. -/
structure Loop where
  start : Int
  stop : Int
  step : Int
  /-- The size of the chunks, or zero for the default static scheduling. -/
  chunk : Int
  nw : Nat

namespace Loop

/-- The loops of the model: there is an index, the step is positive and no static grain is given. -/
structure Fine (l : Loop) : Prop where
  some_left : l.start < l.stop
  step_pos : 0 < l.step
  chunk_nonneg : 0 ≤ l.chunk
  some_workers : 0 < l.nw

/-- A run of a loop up to some step: the tasks that were run, in order. For one worker the caller
runs the loop itself. -/
inductive Runs (l : Loop) (s : ForallScheduler) : List Task → Forall → Prop where
  | alone (one : (s.setloop l.start l.stop l.step l.chunk l.nw).nw ≤ 1) :
      Runs l s [⟨0, l.start, l.stop⟩]
        ⟨s.setloop l.start l.stop l.step l.chunk l.nw, fun _ => .done⟩
  | workers {history : List Task} {f : Forall} (spinwait : Bool)
      (many : 1 < (s.setloop l.start l.stop l.step l.chunk l.nw).nw)
      (moves : History Forall.Step
        (Forall.begin (s.setloop l.start l.stop l.step l.chunk l.nw) spinwait).2 history f) :
      Runs l s ((Forall.begin (s.setloop l.start l.stop l.step l.chunk l.nw) spinwait).1 ++
        history) f

/-- What a loop body that multiplies a value for each index into a variable does in tasks. -/
def body {M : Type} [Mul M] (step : Int) (value : Int → M) (var : M) (tasks : List Task) : M :=
  (tasks.flatMap fun task => indices step task.start task.stop).foldl (fun v idx => v * value idx)
    var

/-- The variable of a reduction behind the loop: every worker has a variable of its own that begins
with the identity, and the caller multiplies them into its own. -/
def reduce {M : Type} [MulOneClass M] (nw : Nat) (step : Int) (value : Int → M) (var : M)
    (tasks : List Task) : M :=
  if nw > 1 then
    (List.range nw).foldl
      (fun v wid => v * body step value 1 (tasks.filter fun task => task.worker = wid)) var
  else body step value var tasks

end Loop

/-- A loop that is finished, and what it leaves. -/
inductive Loop.Done (l : Loop) (s : ForallScheduler) : List Task → ForallScheduler → Prop where
  | workers {tasks : List Task} {f : Forall} (runs : l.Runs s tasks f)
      (done : ∀ wid, f.worker wid = .done) : Done l s tasks f.sched
  /-- With the scheduler thread. -/
  | emitter {tasks : List Task} {e : Emitter} (spinwait : Bool) (eossent : Nat → Bool)
      (many : 1 < (s.setloop l.start l.stop l.step l.chunk l.nw).nw)
      (moves : History Emitter.Step (Emitter.begin
        (s.setloop l.start l.stop l.step l.chunk l.nw) spinwait eossent) tasks e)
      (ended : e.ended = true) : Done l s tasks e.sched

/-- The schedulers between two loops. -/
inductive ForallScheduler.Reached : ForallScheduler → Prop where
  | make (nw : Nat) : Reached (make nw)
  | loop {s s' : ForallScheduler} {l : Loop} {tasks : List Task} (before : Reached s)
      (fine : l.Fine) (done : l.Done s tasks s') : Reached s'

end P3arsec.Fastflow
