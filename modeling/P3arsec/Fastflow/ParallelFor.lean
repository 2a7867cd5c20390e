import P3arsec.Lib.Linearize

/-!
# The tasks of a parallel loop

`forall_Scheduler` cuts the index range of a parallel loop into one part a worker and each part into
chunks. `init_data` lays out the parts. `sendTask` hands a first chunk to every worker before the
workers start; each of them then asks `nextTaskConcurrent` for the next chunk of its own part and,
where none is left, of the part of another one. A chunk is taken by a compare-and-swap on the begin
of its part, and only after that is the number of tasks of the part lowered; every access to a part
is a step of its own here. A scan of `max_element` may end at any part: its loads are not made at
one moment.
-/

namespace P3arsec.Fastflow

open P3arsec.Lib.Concurrent

/-- The quotient rounded up, as `lrint(ceil(a/(double)b))` computes it for integers that a `double`
holds. -/
def ceilDiv (a b : Int) : Int := -((-a) / b)

/-- The indices of `for (idx = start; idx < stop; idx += step)` for a positive step. -/
def indices (step start stop : Int) : List Int :=
  (List.range (ceilDiv (stop - start) step).toNat).map fun j : Nat => start + j * step

/-- `dataPair`: what is left of a part. -/
structure Part where
  /-- The number of chunks that are left, or less. -/
  ntask : Int
  /-- The begin of what is left. -/
  start : Int
  /-- The end. -/
  stop : Int

/-- A part without indices, as the constructor makes it. -/
def Part.none : Part := ⟨0, 0, 0⟩

/-- A task: the worker that runs it and its range. -/
structure Task where
  worker : Nat
  start : Int
  stop : Int

/-- The fields of `forall_Scheduler` that the workers use. -/
structure ForallScheduler where
  step : Int
  chunk : Int
  /-- The number of workers that are started. -/
  nw : Nat
  /-- Whether a worker keeps to its own part. -/
  staticScheduling : Bool
  /-- The number of tasks. -/
  totaltasks : Int
  /-- The part from which workers steal, or less than zero. -/
  maxid : Int
  /-- The number of parts. -/
  size : Nat
  /-- The parts. -/
  data : Nat → Part

namespace ForallScheduler

/-- The loop of `init_data`: the parts from the `i`-th one on, the begin behind the last of them
and the number of tasks that are not in a part. -/
def fill (ntxw : Int) (r : Nat) (step chunk stop : Int) :
    Nat → Nat → Int → Int → List Part × Int × Int
  | 0, _, start, total => ([], start, total)
  | left + 1, i, start, total =>
    if total > 0 then
      let t := ntxw + if r > 1 ∧ i < r then 1 else 0
      let e := start + (t * chunk - 1) * step + 1
      let stop' := if e < stop then e else stop
      let (parts, start', total') :=
        fill ntxw r step chunk stop left (i + 1) (stop' - 1 + step) (total - t)
      (⟨t, start, stop'⟩ :: parts, start', total')
    else ([], start, total)

/-- A scheduler as the constructor makes it, without a loop. -/
def make (nw : Nat) : ForallScheduler :=
  { step := 1, chunk := 1, nw, staticScheduling := false, totaltasks := 0, maxid := -1
    size := nw, data := fun _ => .none }

/-- `data.resize`: the parts of the loop before stay where they are. -/
def resize (data : Nat → Part) (nw : Nat) : Nat → Part :=
  fun i => if i < nw then data i else .none

/-- `init_data` behind the heuristic for the number of tasks of a worker. One task may be over: the
last part gets it, or the chunks get twice the size. -/
def share (old : Nat → Part) (ntxw : Int) (r : Nat) (total start stop step chunk : Int) (nw : Nat) :
    ForallScheduler :=
  let filled := fill ntxw r step chunk stop nw 0 start total
  let data := fun i => filled.1.getD i (resize old nw i)
  let last := data (nw - 1)
  if filled.2.2 = 0 then
    { step, chunk, nw, staticScheduling := false, totaltasks := total, maxid := -1
      size := nw, data }
  else if ntxw > 1 then
    { step, chunk, nw, staticScheduling := false, totaltasks := total, maxid := -1, size := nw
      data := Function.update data (nw - 1) ⟨last.ntask + filled.2.2, last.start, stop⟩ }
  else
    { step, chunk := chunk * 2, nw, staticScheduling := false, totaltasks := total - 1, maxid := -1
      size := nw
      data := Function.update data (nw - 1) ⟨last.ntask, last.start, stop⟩ }

/-- `init_data`. -/
def initData (old : Nat → Part) (start stop step chunk : Int) (nw : Nat) : ForallScheduler :=
  let numtasks := ceilDiv (stop - start) step
  let total := ceilDiv numtasks chunk
  if total / nw = 0 ∧ total % nw ≥ 1 then share old 1 0 total start stop step chunk nw
  else share old (total / nw) (total % nw).toNat total start stop step chunk nw

/-- The loop of `init_data_static` for the default grain: the parts from the `i`-th one on. -/
def fillStatic (r : Nat) (step chunk stop : Int) : Nat → Nat → Int → List Part
  | 0, _, _ => []
  | left + 1, i, start =>
    let e := start + (chunk - 1) * step + 1 + if i < r then step else 0
    let stop' := if e < stop then e else stop
    ⟨1, start, stop'⟩ :: fillStatic r step chunk stop left (i + 1) (stop' - 1 + step)

/-- `init_data_static` for the default grain, that is `chunk = 0`. -/
def initDataStatic (old : Nat → Part) (start stop step : Int) (nw : Nat) : ForallScheduler :=
  let numtasks := ceilDiv (stop - start) step
  let r := (numtasks % nw).toNat
  let chunk := numtasks / nw
  let parts := fillStatic r step chunk stop nw 0 start
  { step, nw, staticScheduling := true, totaltasks := nw, maxid := -1
    chunk := if r ≠ 0 then chunk + 1 else chunk
    size := nw
    data := fun i => parts.getD i (resize old nw i) }

/-- `setloop` for the default static grain and for dynamic scheduling: not more workers are started
than there are tasks. -/
def setloop (s : ForallScheduler) (start stop step chunk : Int) (nw : Nat) : ForallScheduler :=
  let s := if chunk = 0 then initDataStatic s.data start stop step nw
    else initData s.data start stop step chunk nw
  { s with nw := if s.totaltasks ≤ nw then s.totaltasks.toNat else nw }

/-- The range of the next chunk of a part, and the begin behind it. -/
def next (s : ForallScheduler) (d : Part) : Int × Int :=
  let endchunk := (s.chunk - 1) * s.step + 1
  let stop := min (d.start + endchunk) d.stop
  (stop, stop - 1 + s.step)

/-- One turn of the loop of `sendTask`. -/
def sendOne (wid : Nat) (s : ForallScheduler) : List Task × ForallScheduler :=
  if (s.data wid).ntask > 0 then
    ([⟨wid, (s.data wid).start, (s.next (s.data wid)).1⟩],
      { s with
        data := Function.update s.data wid
          ⟨(s.data wid).ntask - 1, (s.next (s.data wid)).2, (s.data wid).stop⟩ })
  else ([], s)

/-- `sendTask(true)`: a first task for each worker. -/
def sendTask (s : ForallScheduler) : List Task × ForallScheduler :=
  (List.range s.nw).foldl (fun sent wid =>
    (sent.1 ++ (sendOne wid sent.2).1, (sendOne wid sent.2).2)) ([], s)

end ForallScheduler

/-- Where a worker is in `nextTaskConcurrent`. -/
inductive NextTask where
  /-- About to load `ntask` of a part. -/
  | testing (id : Nat)
  /-- About to load the begin of the part. -/
  | loading (id : Nat)
  /-- About to swap the begin, for a chunk up to `stop`. -/
  | swapping (id : Nat) (oldstart stop : Int)
  /-- About to lower `ntask`. -/
  | lowering (id : Nat) (oldstart stop : Int)
  /-- About to load `maxid`. -/
  | stealing
  /-- About to load `ntask` of the part to steal from. -/
  | choosing (id : Nat)
  /-- The call has returned `false`. -/
  | done

/-- The workers of a parallel loop. -/
structure Forall where
  sched : ForallScheduler
  worker : Nat → NextTask

/-- A step of a worker; a task that it gets is shown. -/
inductive Forall.Step : Forall → Option Task → Forall → Prop where
  /-- `ntask` is loaded. -/
  | test {s : ForallScheduler} {worker : Nat → NextTask} {wid id : Nat}
      (here : worker wid = .testing id) :
      Forall.Step ⟨s, worker⟩ none ⟨s, Function.update worker wid
        (if (s.data id).ntask > 0 then .loading id
          else if s.staticScheduling then .done else .stealing)⟩
  /-- The begin is loaded. -/
  | load {s : ForallScheduler} {worker : Nat → NextTask} {wid id : Nat}
      (here : worker wid = .loading id) :
      Forall.Step ⟨s, worker⟩ none ⟨s, Function.update worker wid
        (.swapping id (s.data id).start (s.next (s.data id)).1)⟩
  /-- The compare-and-swap fails, which it may do at any time. -/
  | miss {s : ForallScheduler} {worker : Nat → NextTask} {wid id : Nat} {oldstart stop : Int}
      (here : worker wid = .swapping id oldstart stop) :
      Forall.Step ⟨s, worker⟩ none ⟨s, Function.update worker wid (.testing id)⟩
  /-- The compare-and-swap succeeds. -/
  | swap {s : ForallScheduler} {worker : Nat → NextTask} {wid id : Nat} {oldstart stop : Int}
      (here : worker wid = .swapping id oldstart stop) (same : (s.data id).start = oldstart) :
      Forall.Step ⟨s, worker⟩ none
        ⟨{ s with
            data := Function.update s.data id
              ⟨(s.data id).ntask, stop - 1 + s.step, (s.data id).stop⟩ },
          Function.update worker wid (.lowering id oldstart stop)⟩
  /-- `ntask` is lowered, and the call returns the task. The worker runs it and calls again. -/
  | take {s : ForallScheduler} {worker : Nat → NextTask} {wid id : Nat} {oldstart stop : Int}
      (here : worker wid = .lowering id oldstart stop) (some_left : oldstart < stop) :
      Forall.Step ⟨s, worker⟩ (some ⟨wid, oldstart, stop⟩)
        ⟨{ s with
            data := Function.update s.data id
              ⟨(s.data id).ntask - 1, (s.data id).start, (s.data id).stop⟩ },
          Function.update worker wid (.testing wid)⟩
  /-- `ntask` is lowered, but the chunk has no indices. -/
  | lower {s : ForallScheduler} {worker : Nat → NextTask} {wid id : Nat} {oldstart stop : Int}
      (here : worker wid = .lowering id oldstart stop) (none_left : ¬oldstart < stop) :
      Forall.Step ⟨s, worker⟩ none
        ⟨{ s with
            data := Function.update s.data id
              ⟨(s.data id).ntask - 1, (s.data id).start, (s.data id).stop⟩ },
          Function.update worker wid (if s.staticScheduling then .done else .stealing)⟩
  /-- `maxid` is not set, and the scan ends at a part. -/
  | scan {s : ForallScheduler} {worker : Nat → NextTask} {wid : Nat} (id : Nat)
      (here : worker wid = .stealing) (unset : s.maxid < 0) :
      Forall.Step ⟨s, worker⟩ none ⟨s, Function.update worker wid (.choosing id)⟩
  /-- `maxid` is set. -/
  | reuse {s : ForallScheduler} {worker : Nat → NextTask} {wid : Nat}
      (here : worker wid = .stealing) (known : 0 ≤ s.maxid) :
      Forall.Step ⟨s, worker⟩ none ⟨s, Function.update worker wid (.choosing s.maxid.toNat)⟩
  /-- The part has tasks: `maxid` is set and the worker goes there. -/
  | steal {s : ForallScheduler} {worker : Nat → NextTask} {wid id : Nat}
      (here : worker wid = .choosing id) (some_left : 0 < (s.data id).ntask) :
      Forall.Step ⟨s, worker⟩ none
        ⟨{ s with maxid := id }, Function.update worker wid (.testing id)⟩
  /-- The part has no tasks: the call returns `false`. -/
  | stop {s : ForallScheduler} {worker : Nat → NextTask} {wid id : Nat}
      (here : worker wid = .choosing id) (none_left : (s.data id).ntask ≤ 0) :
      Forall.Step ⟨s, worker⟩ none ⟨s, Function.update worker wid .done⟩

/-- The workers that are started; the others do nothing. -/
def Forall.start (s : ForallScheduler) : Forall :=
  ⟨s, fun wid => if wid < s.nw then .testing wid else .done⟩

/-- The tasks that are handed out before the workers start, and the workers then. Where the workers
spin they get an empty task to wake up. -/
def Forall.begin (s : ForallScheduler) (spinwait : Bool) : List Task × Forall :=
  if spinwait then ((List.range s.nw).map fun wid => ⟨wid, 0, 0⟩, .start s)
  else (s.sendTask.1, .start s.sendTask.2)

end P3arsec.Fastflow
