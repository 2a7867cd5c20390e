import P3arsec.Lib.Fold
import P3arsec.Streamcluster.Points

/-!
# The gain of opening a center

`pgain` computes what it would gain to open a center at `x`. The points are divided into one
block for each thread. Every thread enters into a row of `work_mem` what the points of its block
would pay more if their centers closed; the rows are added up center by center, and the partial
costs of the threads give the cost of the whole move. The move is made when it saves money.

Between two barriers the threads run in any order; the FastFlow version has the first phases in
the calling thread. The centers are numbered through `center_table` by a count of the centers of
each block and an offset.
-/

namespace P3arsec.Streamcluster

open P3arsec.Lib

/-- The conversion `(int)` of a double. -/
structure Conversion (𝕂 : Type) [NatCast 𝕂] where
  /-- The converted value, for values that are not negative. -/
  toInt : 𝕂 → Nat
  /-- The conversion is exact on whole numbers. -/
  toInt_cast : ∀ n : Nat, toInt n = n

/-- The phases of the threads between two barriers. -/
inductive Phase where
  /-- Count the centers of the own block. -/
  | count
  /-- Add the offset of the own block and clear the own memory. -/
  | offset
  /-- Look at the points of the own block. -/
  | gain
  /-- Look at the centers of the own block. -/
  | lower
  /-- Make the move in the own block. -/
  | commit

/-- The order in which the threads run in each phase. -/
structure Schedule (nproc : Nat) where
  /-- The threads in their order. -/
  order : Phase → List Nat
  /-- Every thread runs once in each phase. -/
  perm : ∀ phase, (order phase).Perm (List.range nproc)

/-- The arrays `center_table` and `switch_membership`, `work_mem` and what each thread has for
itself. -/
structure Memory (𝕂 : Type) where
  /-- `center_table`: the numbers of the centers. -/
  centerTable : Nat → Nat
  /-- `switch_membership`: the points that go over to `x` by themselves. -/
  switchMembership : Nat → Bool
  /-- `work_mem`: one row for each thread and one for all. -/
  workMem : Nat → 𝕂
  /-- `cost_of_opening_x` of each thread. -/
  costOfOpeningX : Nat → 𝕂
  /-- `number_of_centers_to_close` of each thread. -/
  numberOfCentersToClose : Nat → Nat

variable {𝕂 : Type} [Field 𝕂] [LinearOrder 𝕂]

/-- The arguments of `pgain` with the number of threads. -/
structure Call (𝕂 : Type) [Field 𝕂] where
  /-- The point to open. -/
  x : Nat
  /-- The cost of a center. -/
  z : 𝕂
  /-- The points, the centers and their number. -/
  st : Clustering 𝕂
  /-- The number of threads. -/
  nproc : Nat
  /-- The conversion to whole numbers. -/
  conv : Conversion 𝕂

/-- What `pgain` leaves and returns. -/
structure Outcome (𝕂 : Type) where
  /-- The points, the centers and their number. -/
  st : Clustering 𝕂
  /-- `gl_cost_of_opening_x` as it is computed. -/
  glCostOfOpeningX : 𝕂
  /-- The value returned. -/
  returned : 𝕂

namespace Call

variable (call : Call 𝕂)

/-- `stride`: the length of a row, made a multiple of the four doubles of a cache line. -/
def stride : Nat :=
  let stride := call.st.numcenters + 2
  let cl := 32 / 8
  if stride % cl ≠ 0 then cl * (stride / cl + 1) else stride

/-- `K`: the two cells behind those of the centers. -/
def K : Nat := call.stride - 2

/-- `k1`: the first point of a block. -/
def k1 (pid : Nat) : Nat := call.st.points.num / call.nproc * pid

/-- `k2`: the end of a block; the last thread takes the rest. -/
def k2 (pid : Nat) : Nat :=
  if pid = call.nproc - 1 then call.st.points.num
  else call.k1 pid + call.st.points.num / call.nproc

/-- The points of a block in loop order. -/
def block (pid : Nat) : List Nat := List.range' (call.k1 pid) (call.k2 pid - call.k1 pid)

/-- Number the centers of a block and store their count. -/
def countCenters (mem : Memory 𝕂) (pid : Nat) : Memory 𝕂 :=
  let counted := (call.block pid).foldl (fun (acc : (Nat → Nat) × Nat) i =>
    if call.st.isCenter i then (Function.update acc.1 i acc.2, acc.2 + 1) else acc)
    (mem.centerTable, 0)
  { mem with
    centerTable := counted.1
    workMem := Function.update mem.workMem (pid * call.stride) counted.2 }

/-- Replace the counts of the blocks by their offsets. -/
def accumulate (mem : Memory 𝕂) : Memory 𝕂 :=
  { mem with
    workMem := ((List.range call.nproc).foldl (fun (acc : (Nat → 𝕂) × Nat) p =>
      let tmp := call.conv.toInt (acc.1 (p * call.stride))
      (Function.update acc.1 (p * call.stride) acc.2, acc.2 + tmp)) (mem.workMem, 0)).1 }

/-- Add the offset of a block to the numbers of its centers. -/
def addOffset (mem : Memory 𝕂) (pid : Nat) : Memory 𝕂 :=
  { mem with
    centerTable := (call.block pid).foldl (fun table i =>
      if call.st.isCenter i then
        Function.update table i (table i + call.conv.toInt (mem.workMem (pid * call.stride)))
      else table) mem.centerTable }

/-- Clear the memory of all threads, as the FastFlow version does. -/
def clearAll (mem : Memory 𝕂) : Memory 𝕂 :=
  { mem with
    switchMembership := fun i =>
      if i < call.st.points.num then false else mem.switchMembership i
    workMem := fun k => if k < call.stride * (call.nproc + 1) then 0 else mem.workMem k }

/-- Clear the memory of one thread; the first one also clears the common row. -/
def clearOwn (mem : Memory 𝕂) (pid : Nat) : Memory 𝕂 :=
  { mem with
    switchMembership := fun i =>
      if call.k1 pid ≤ i ∧ i < call.k2 pid then false else mem.switchMembership i
    workMem := fun k =>
      if pid * call.stride ≤ k ∧ k < pid * call.stride + call.stride then 0
      else if pid = 0 ∧ call.nproc * call.stride ≤ k ∧
        k < call.nproc * call.stride + call.stride then 0
      else mem.workMem k }

/-- The body of the loop over the points of a block. -/
def considerPoint (pid : Nat) (mem : Memory 𝕂) (i : Nat) : Memory 𝕂 :=
  let points := call.st.points
  let xCost := dist (points.p i) (points.p call.x) points.dim * (points.p i).weight
  let currentCost := (points.p i).cost
  if xCost < currentCost then
    { mem with
      switchMembership := Function.update mem.switchMembership i true
      costOfOpeningX := addAt mem.costOfOpeningX pid (xCost - currentCost) }
  else
    { mem with
      workMem := addAt mem.workMem
        (pid * call.stride + mem.centerTable (points.p i).assign) (currentCost - xCost) }

/-- Look at the points of a block. -/
def gainLoop (mem : Memory 𝕂) (pid : Nat) : Memory 𝕂 :=
  (call.block pid).foldl (call.considerPoint pid) mem

/-- `low`: what closing a center would save, added up over the rows of the threads. -/
def low (mem : Memory 𝕂) (i : Nat) : 𝕂 :=
  (List.range call.nproc).foldl (fun low p =>
    low + mem.workMem (mem.centerTable i + p * call.stride)) call.z

/-- The body of the loop over the centers of a block. -/
def considerCenter (pid : Nat) (mem : Memory 𝕂) (i : Nat) : Memory 𝕂 :=
  if call.st.isCenter i then
    let low := call.low mem i
    let workMem := Function.update mem.workMem
      (call.nproc * call.stride + mem.centerTable i) low
    if 0 < low then
      { mem with
        workMem := workMem
        numberOfCentersToClose := addAt mem.numberOfCentersToClose pid 1
        costOfOpeningX := addAt mem.costOfOpeningX pid (-low) }
    else { mem with workMem := workMem }
  else mem

/-- Look at the centers of a block and store the count and the cost of the thread. -/
def lowerLoop (mem : Memory 𝕂) (pid : Nat) : Memory 𝕂 :=
  let mem := (call.block pid).foldl (call.considerCenter pid)
    { mem with
      numberOfCentersToClose := Function.update mem.numberOfCentersToClose pid 0 }
  { mem with
    workMem := Function.update
      (Function.update mem.workMem (pid * call.stride + call.K) (mem.numberOfCentersToClose pid))
      (pid * call.stride + call.K + 1) (mem.costOfOpeningX pid) }

/-- `gl_number_of_centers_to_close` and `gl_cost_of_opening_x`. -/
def aggregate (mem : Memory 𝕂) : Nat × 𝕂 :=
  (List.range call.nproc).foldl (fun acc p =>
    (acc.1 + call.conv.toInt (mem.workMem (p * call.stride + call.K)),
      acc.2 + mem.workMem (p * call.stride + call.K + 1))) (0, call.z)

/-- `gl_lower`. -/
def glLower (mem : Memory 𝕂) (k : Nat) : 𝕂 := mem.workMem (call.nproc * call.stride + k)

/-- The body of the loop that moves the points of a block. -/
def reassign (mem : Memory 𝕂) (points : Points 𝕂) (i : Nat) : Points 𝕂 :=
  let closeCenter := decide (0 < call.glLower mem (mem.centerTable (points.p i).assign))
  if mem.switchMembership i || closeCenter then
    { points with
      p := Function.update points.p i { points.p i with
        cost := (points.p i).weight * dist (points.p i) (points.p call.x) points.dim
        assign := call.x } }
  else points

/-- The body of the loop that closes the centers of a block. -/
def close (mem : Memory 𝕂) (isCenter : Nat → Bool) (i : Nat) : Nat → Bool :=
  if isCenter i && decide (0 < call.glLower mem (mem.centerTable i)) then
    Function.update isCenter i false
  else isCenter

/-- Make the move in a block. -/
def commit (mem : Memory 𝕂) (st : Clustering 𝕂) (pid : Nat) : Clustering 𝕂 :=
  let points := (call.block pid).foldl (call.reassign mem) st.points
  let isCenter := (call.block pid).foldl (call.close mem) st.isCenter
  { st with
    points := points
    isCenter := if call.k1 pid ≤ call.x ∧ call.x < call.k2 pid then
        Function.update isCenter call.x true
      else isCenter }

/-- The part that the two versions have in common, when the centers are numbered and the memory
is clear. -/
def finish (sched : Schedule call.nproc) (mem : Memory 𝕂) : Outcome 𝕂 :=
  let mem := (sched.order .gain).foldl call.gainLoop mem
  let mem := (sched.order .lower).foldl call.lowerLoop mem
  let (glNumberOfCentersToClose, glCostOfOpeningX) := call.aggregate mem
  if glCostOfOpeningX < 0 then
    let st := (sched.order .commit).foldl (call.commit mem) call.st
    ⟨{ st with numcenters := st.numcenters + 1 - glNumberOfCentersToClose }, glCostOfOpeningX,
      -glCostOfOpeningX⟩
  else ⟨call.st, glCostOfOpeningX, -0⟩

/-- `pgain` of the FastFlow version, on memory of any content. -/
def pgainFF (sched : Schedule call.nproc) (mem : Memory 𝕂) : Outcome 𝕂 :=
  let mem := { mem with costOfOpeningX := fun _ => 0 }
  let mem := (List.range call.nproc).foldl call.countCenters mem
  let mem := call.accumulate mem
  let mem := (List.range call.nproc).foldl call.addOffset mem
  call.finish sched (call.clearAll mem)

/-- `pgain` of the pthreads version, on memory of any content. -/
def pgainPthreads (sched : Schedule call.nproc) (mem : Memory 𝕂) : Outcome 𝕂 :=
  let mem := { mem with costOfOpeningX := fun _ => 0 }
  let mem := (sched.order .count).foldl call.countCenters mem
  let mem := call.accumulate mem
  let mem := (sched.order .offset).foldl (fun mem pid => call.clearOwn (call.addOffset mem pid) pid)
    mem
  call.finish sched mem

/-- The two versions. -/
inductive Version where
  /-- FastFlow. -/
  | ff
  /-- Threads, and sequential with one thread. -/
  | pthreads

/-- `pgain` up to where the memory is clear. -/
def tabulate (version : Version) (sched : Schedule call.nproc) (mem : Memory 𝕂) : Memory 𝕂 :=
  let mem := { mem with costOfOpeningX := fun _ => 0 }
  match version with
  | .ff =>
    let mem := (List.range call.nproc).foldl call.countCenters mem
    let mem := call.accumulate mem
    let mem := (List.range call.nproc).foldl call.addOffset mem
    call.clearAll mem
  | .pthreads =>
    let mem := (sched.order .count).foldl call.countCenters mem
    let mem := call.accumulate mem
    (sched.order .offset).foldl (fun mem pid => call.clearOwn (call.addOffset mem pid) pid) mem

/-- `pgain`. -/
def pgain (version : Version) (sched : Schedule call.nproc) (mem : Memory 𝕂) : Outcome 𝕂 :=
  match version with
  | .ff => call.pgainFF sched mem
  | .pthreads => call.pgainPthreads sched mem

end Call

end P3arsec.Streamcluster
