import P3arsec.Lib.Run
import P3arsec.Streamcluster.GainCorrect

/-!
# The local search for medians

`pkmedian` seeds a clustering with `pspeedy`, and improves it with `pFL`, which calls `pgain` for
points in random order until that saves little. The price `z` of a median is searched between
`loz` and `hiz`, so that the number of medians comes to lie between `kmin` and `kmax`. The variable
`cost` is carried along. It is the cost of the clustering at the current price after each seeding,
each call and each change of the price (`cost_balanced`).
-/

namespace P3arsec.Streamcluster

open P3arsec.Lib

variable {𝕂 : Type} [Field 𝕂] [LinearOrder 𝕂]

/-- `INT_MAX`. -/
def intMax : Nat := 2 ^ 31 - 1

/-- `SP`. -/
def sp : Nat := 1

/-- Two entries of an array are exchanged. -/
def exchange {ι : Type} (p : Nat → ι) (i j : Nat) : Nat → ι :=
  let temp := p i
  Function.update (Function.update p i (p j)) j temp

/-- `shuffle`, and `intshuffle`: the array after the loop, for the numbers that `lrand48` gives in
the iterations. -/
def shuffle {ι : Type} (rand : Nat → Nat) (num : Nat) (p : Nat → ι) : Nat → ι :=
  (List.range (num - 1)).foldl (fun p i => exchange p i (rand i % (num - i) + i)) p

namespace Points

variable (points : Points 𝕂)

/-- The points in random order. -/
def shuffle (rand : Nat → Nat) : Points 𝕂 :=
  { points with p := Streamcluster.shuffle rand points.num points.p }

/-- The loop of `pspeedy` that sends all points to the first one. -/
def sendToFirst : Points 𝕂 :=
  { points with
    p := fun idx =>
      if idx < points.num then
        let distance := dist (points.p idx) (points.p 0) points.dim
        { points.p idx with cost := distance * (points.p idx).weight, assign := 0 }
      else points.p idx }

/-- The loop of `pspeedy` that opens a center at `i`. -/
def openCenter (i : Nat) : Points 𝕂 :=
  { points with
    p := fun idx =>
      let distance := dist (points.p i) (points.p idx) points.dim
      if idx < points.num ∧ distance * (points.p idx).weight < (points.p idx).cost then
        { points.p idx with cost := distance * (points.p idx).weight, assign := i }
      else points.p idx }

/-- The body of the loop of `pspeedy`: whether a center is opened at `i` is random. -/
def speedyStep (rand : Nat → Nat) (z : 𝕂) (state : Points 𝕂 × Nat) (i : Nat) : Points 𝕂 × Nat :=
  if (rand i : 𝕂) / intMax < (state.1.p i).cost / z then (state.1.openCenter i, state.2 + 1)
  else state

/-- `pspeedy`: the points, `kcenter` and the total cost. -/
def pspeedy (rand : Nat → Nat) (z : 𝕂) : Points 𝕂 × Nat × 𝕂 :=
  let opened := (List.range' 1 (points.num - 1)).foldl (speedyStep rand z)
    (points.sendToFirst, 1)
  (opened.1, opened.2, (List.range points.num).foldl (fun totalcost i =>
    totalcost + (opened.1.p i).cost) (z * opened.2))

/-- `accumweight`. -/
def accumweight : Nat → 𝕂
  | 0 => (points.p 0).weight
  | i + 1 => accumweight i + (points.p (i + 1)).weight

/-- The binary search of `selectfeasible_fast`. -/
def search (w : 𝕂) (l r : Nat) : Nat :=
  if l + 1 < r then
    let k := (l + r) / 2
    if points.accumweight k > w then search w l k else search w k r
  else r
termination_by r - l

/-- The point that `selectfeasible_fast` draws for a random number. -/
def draw (rand : Nat) : Nat :=
  let w := (rand : 𝕂) / intMax * points.accumweight (points.num - 1)
  if points.accumweight 0 > w then 0 else points.search w 0 (points.num - 1)

/-- `selectfeasible_fast`, where `many` is `ITER*kmin*log((double)kmin)`. -/
def selectfeasibleFast (conv : Conversion 𝕂) (rand : Nat → Nat) (many : 𝕂) : List Nat :=
  let numfeasible := if many < (points.num : 𝕂) then conv.toInt many else points.num
  if numfeasible = points.num then List.range numfeasible
  else (List.range numfeasible).map fun i => points.draw (rand i)

end Points

/-- The arguments of `pkmedian`, with the number of threads and what the code takes from the
language. -/
structure Kmedian (𝕂 : Type) [Field 𝕂] where
  /-- The least number of medians. -/
  kmin : Nat
  /-- The greatest number of medians. -/
  kmax : Nat
  /-- The bounds are in order. -/
  kmin_le : kmin ≤ kmax
  /-- The number of threads. -/
  nproc : Nat
  /-- There is a thread. -/
  nproc_pos : 0 < nproc
  /-- The conversion to whole numbers. -/
  conv : Conversion 𝕂
  /-- `ITER*k*log((double)k)`. -/
  iterLog : Nat → 𝕂

namespace Kmedian

/-- Where `pkmedian` is. -/
inductive Phase where
  /-- At the begin. -/
  | begin
  /-- In the loop that gives `pspeedy` more chances. -/
  | retry
  /-- In the loop that lowers the price until there are enough centers. -/
  | lower
  /-- Before the points that may become centers are selected. -/
  | select
  /-- At the test of the loop of `pFL`, in the rough or in the accurate call. -/
  | test (accurate : Bool)
  /-- In the loop of `pFL` that calls `pgain`. -/
  | gain (accurate : Bool)
  /-- After the calls of `pFL`. -/
  | adjust
  /-- Returned with all points as medians. -/
  | few
  /-- Returned. -/
  | done
  deriving DecidableEq, Repr

/-- The variables of `pkmedian` and `pFL`. The count of the clustering is the static variable
`k`. -/
structure State (𝕂 : Type) where
  /-- Where it is. -/
  phase : Phase
  /-- The points, `is_center` and `k`. -/
  st : Clustering 𝕂
  /-- `cost`. -/
  cost : 𝕂
  /-- `hiz`. -/
  hiz : 𝕂
  /-- `loz`. -/
  loz : 𝕂
  /-- `z`. -/
  z : 𝕂
  /-- The count of the calls of `pspeedy`. -/
  i : Nat
  /-- `feasible`. -/
  feasible : List Nat
  /-- `change` of `pFL`. -/
  change : 𝕂
  /-- The number of the iteration of `pFL`. -/
  iteration : Nat
  /-- `*kfinal`. -/
  kfinal : Nat

/-- What is left open in a step: the numbers that `lrand48` gives, the order of the threads and the
content of the memory of `pgain`. -/
structure Choice (kmedian : Kmedian 𝕂) where
  /-- The numbers for `shuffle` and `intshuffle`. -/
  shuffled : Nat → Nat
  /-- The numbers for `pspeedy` and `selectfeasible_fast`. -/
  rand : Nat → Nat
  /-- The order of the threads. -/
  sched : Schedule kmedian.nproc
  /-- The memory. -/
  mem : Memory 𝕂

variable (kmedian : Kmedian 𝕂)

/-- The points before `pkmedian`, with no marks in `is_center` and any value of `k`. -/
def start (points : Points 𝕂) (k : Nat) : State 𝕂 where
  phase := .begin
  st := ⟨points, fun _ => false, k⟩
  cost := 0
  hiz := 0
  loz := 0
  z := 0
  i := 0
  feasible := []
  change := 0
  iteration := 0
  kfinal := 0

/-- A call of `pspeedy` on the points. -/
def seed (rand : Nat → Nat) (points : Points 𝕂) (s : State 𝕂) : State 𝕂 :=
  let seeded := points.pspeedy rand s.z
  { s with st := { s.st with points := seeded.1, numcenters := seeded.2.1 }, cost := seeded.2.2 }

/-- The part of `pkmedian` before the loops. -/
def stepBegin (choice : kmedian.Choice) (s : State 𝕂) : State 𝕂 :=
  let points := s.st.points
  let hiz := (List.range points.num).foldl (fun sum idx =>
    sum + dist (points.p idx) (points.p 0) points.dim * (points.p idx).weight) 0
  let s := { s with hiz := hiz, loz := 0, z := (hiz + 0) / 2 }
  if points.num ≤ kmedian.kmax then
    { s with
      phase := .few
      st := { s.st with
        points := { points with
          p := fun idx =>
            if idx < points.num then { points.p idx with assign := idx, cost := 0 }
            else points.p idx } }
      cost := 0
      kfinal := s.st.numcenters }
  else { seed choice.rand (points.shuffle choice.shuffled) s with phase := .retry, i := 0 }

/-- The loop that gives `pspeedy` `SP` chances. -/
def stepRetry (choice : kmedian.Choice) (s : State 𝕂) : State 𝕂 :=
  if s.st.numcenters < kmedian.kmin ∧ s.i < sp then
    { seed choice.rand s.st.points s with i := s.i + 1 }
  else { s with phase := .lower }

/-- The loop that takes the price to be too high. -/
def stepLower (choice : kmedian.Choice) (s : State 𝕂) : State 𝕂 :=
  if s.st.numcenters < kmedian.kmin then
    let s := if sp ≤ s.i then { s with hiz := s.z, z := (s.z + s.loz) / 2, i := 0 } else s
    { seed choice.rand (s.st.points.shuffle choice.shuffled) s with i := s.i + 1 }
  else { s with phase := .select }

/-- The begin of `pFL`. -/
def callFL (accurate : Bool) (s : State 𝕂) : State 𝕂 :=
  { s with phase := .test accurate, change := s.cost }

/-- The points that may become centers are selected, and the centers are marked. -/
def stepSelect (choice : kmedian.Choice) (s : State 𝕂) : State 𝕂 :=
  let points := s.st.points
  callFL false { s with
    feasible := points.selectfeasibleFast kmedian.conv choice.rand (kmedian.iterLog kmedian.kmin)
    st := { s.st with
      isCenter := (List.range points.num).foldl (fun isCenter i =>
        Function.update isCenter (points.p i).assign true) s.st.isCenter } }

/-- The argument `e` of `pFL`. -/
def threshold (accurate : Bool) : 𝕂 := if accurate then 1 / 1000 else 1 / 10

/-- The number of centers seems good. -/
def Good (k : Nat) : Prop :=
  ((k : 𝕂) ≤ 11 / 10 * kmedian.kmax ∧ 9 / 10 * kmedian.kmin ≤ (k : 𝕂)) ∨
    (k ≤ kmedian.kmax + 2 ∧ kmedian.kmin ≤ k + 2)

instance (k : Nat) : Decidable (kmedian.Good k) := inferInstanceAs (Decidable (_ ∨ _))

/-- The test of the loop of `pFL`, and what comes after the call. -/
def stepTest (choice : kmedian.Choice) (accurate : Bool) (s : State 𝕂) : State 𝕂 :=
  if 1 * threshold accurate < s.change / s.cost then
    { s with
      phase := .gain accurate
      change := 0
      iteration := 0
      feasible :=
        (List.range s.feasible.length).map
          (shuffle choice.shuffled s.feasible.length fun i => s.feasible.getD i 0) }
  else if accurate = false ∧ kmedian.Good s.st.numcenters then callFL true s
  else { s with phase := .adjust }

/-- An iteration of `pFL`, or the end of the loop. -/
def stepGain (choice : kmedian.Choice) (accurate : Bool) (s : State 𝕂) : Option (State 𝕂) :=
  if s.iteration < kmedian.conv.toInt (kmedian.iterLog kmedian.kmax) then do
    let x ← s.feasible[s.iteration % s.feasible.length]?
    let call : Call 𝕂 := ⟨x, s.z, s.st, kmedian.nproc, kmedian.conv⟩
    let outcome := call.pgain .ff choice.sched choice.mem
    some { s with
      st := outcome.st
      change := s.change + outcome.returned
      iteration := s.iteration + 1 }
  else some { s with phase := .test accurate, cost := s.cost - s.change }

/-- The search for the price. -/
def stepAdjust (s : State 𝕂) : State 𝕂 :=
  let k := s.st.numcenters
  let s := if kmedian.kmax < k then
      { s with loz := s.z, z := (s.hiz + s.z) / 2, cost := s.cost + ((s.hiz + s.z) / 2 - s.z) * k }
    else s
  let s := if k < kmedian.kmin then
      { s with hiz := s.z, z := (s.z + s.loz) / 2, cost := s.cost + ((s.z + s.loz) / 2 - s.z) * k }
    else s
  if (k ≤ kmedian.kmax ∧ kmedian.kmin ≤ k) ∨ 999 / 1000 * s.hiz ≤ s.loz then
    { s with phase := .done, kfinal := k }
  else callFL false s

/-- One step of `pkmedian`. It stops when an iteration of `pFL` has no feasible point. -/
def step (choice : kmedian.Choice) (s : State 𝕂) : Option (State 𝕂) :=
  match s.phase with
  | .begin => some (kmedian.stepBegin choice s)
  | .retry => some (kmedian.stepRetry choice s)
  | .lower => some (kmedian.stepLower choice s)
  | .select => some (kmedian.stepSelect choice s)
  | .test accurate => some (kmedian.stepTest choice accurate s)
  | .gain accurate => kmedian.stepGain choice accurate s
  | .adjust => some (kmedian.stepAdjust s)
  | .few => none
  | .done => none

/-- The states of a call of `pkmedian`. -/
def Reached (points : Points 𝕂) (k : Nat) : State 𝕂 → Prop :=
  Reachable (· = start points k) fun s next => ∃ choice, kmedian.step choice s = some next

end Kmedian

end P3arsec.Streamcluster
