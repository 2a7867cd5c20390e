import P3arsec.Lib.FloatingPoint
import P3arsec.Streamcluster.Weights

/-!
# The local search with the numbers of the program

The points, their costs and the price that `pspeedy` gets are of type `float`; `pkmedian` and `pFL`
have variables of type `double`. So distances and prices can become zero by rounding, and a price
between two neighbouring numbers is one of them. What `pgain` saves is left open here, and so is the
number of medians when it has opened one: the loops around it are to end for everything that its
threads add up.
-/

namespace P3arsec.Streamcluster.Rounded

open P3arsec.Lib Value

/-- `dist`. -/
def dist (p1 p2 : Point Value) (dim : Nat) : Value :=
  (List.range dim).foldl (fun result i =>
    let difference := binary32.sub (p1.coord i) (p2.coord i)
    binary32.sum result (binary32.mul difference difference)) (num 0)

/-- `(float)lrand48()/(float)INT_MAX`. -/
def random (rand : Nat) : Value := binary32.div (binary32.ofRat rand) (binary32.ofRat intMax)

/-- What a point costs at another one: the distance times the weight. -/
def price (points : Points Value) (center idx : Nat) : Value :=
  binary32.mul (dist (points.p center) (points.p idx) points.dim) (points.p idx).weight

/-- The loop of `pspeedy` that sends all points to the first one. -/
def sendToFirst (points : Points Value) : Points Value :=
  { points with
    p := fun idx =>
      if idx < points.num then
        let distance := dist (points.p idx) (points.p 0) points.dim
        { points.p idx with
          cost := binary32.mul distance (points.p idx).weight
          assign := 0 }
      else points.p idx }

/-- The loop of `pspeedy` that opens a center at `i`. -/
def openCenter (points : Points Value) (i : Nat) : Points Value :=
  { points with
    p := fun idx =>
      let distance := dist (points.p i) (points.p idx) points.dim
      if idx < points.num ∧ binary32.mul distance (points.p idx).weight < (points.p idx).cost then
        { points.p idx with
          cost := binary32.mul distance (points.p idx).weight
          assign := i }
      else points.p idx }

/-- The body of the loop of `pspeedy`: whether a center is opened at `i` is random. -/
def speedyStep (rand : Nat → Nat) (z : Value) (state : Points Value × Nat) (i : Nat) :
    Points Value × Nat :=
  if random (rand i) < binary32.div (state.1.p i).cost z then
    (openCenter state.1 i, state.2 + 1)
  else state

/-- `pspeedy` for a price of type `float`: the points, `kcenter` and the total cost. -/
def pspeedy (points : Points Value) (rand : Nat → Nat) (z : Value) : Points Value × Nat × Value :=
  let opened := (List.range' 1 (points.num - 1)).foldl (speedyStep rand z) (sendToFirst points, 1)
  let totalcost := (List.range points.num).foldl (fun totalcost i =>
    binary64.sum totalcost (opened.1.p i).cost) (binary32.mul z (binary32.ofRat opened.2))
  (opened.1, opened.2, binary32.convert totalcost)

/-- `hiz`: each worker adds up the weighted distances of its part from the first point, and the
caller the sums of the workers. -/
def hizOf (points : Points Value) (parts : List (List Nat)) : Value :=
  parts.foldl (fun hiz part => binary64.sum hiz (part.foldl (fun sum i =>
    binary64.sum sum (binary32.mul (dist (points.p i) (points.p 0) points.dim)
      (points.p i).weight)) (num 0))) (num 0)

/-- The arguments of `pkmedian`, and what it takes from the library. -/
structure Kmedian where
  /-- The least number of medians. -/
  kmin : Nat
  /-- The greatest number of medians. -/
  kmax : Nat
  /-- The points that each worker of the reduction adds up. -/
  parts : List (List Nat)
  /-- The whole part of `ITER*k*log((double)k)`. -/
  iterLog : Nat → Nat

namespace Kmedian

/-- The variables of `pkmedian` and `pFL`. -/
structure State where
  /-- Where it is. -/
  phase : Streamcluster.Kmedian.Phase
  /-- The points. -/
  points : Points Value
  /-- `k`. -/
  k : Nat
  /-- `cost`. -/
  cost : Value
  /-- `hiz`. -/
  hiz : Value
  /-- `loz`. -/
  loz : Value
  /-- `z`. -/
  z : Value
  /-- The count of the calls of `pspeedy`. -/
  i : Nat
  /-- `numfeasible`. -/
  numfeasible : Nat
  /-- `change` of `pFL`. -/
  change : Value
  /-- The number of the iteration of `pFL`. -/
  iteration : Nat
  /-- `*kfinal`. -/
  kfinal : Nat

/-- What is left open in a step: the numbers that `lrand48` gives, and what the threads of `pgain`
come to. -/
structure Choice where
  /-- The numbers for `shuffle`. -/
  shuffled : Nat → Nat
  /-- The numbers for `pspeedy`. -/
  rand : Nat → Nat
  /-- `gl_cost_of_opening_x`. -/
  glCostOfOpeningX : Value
  /-- The number of medians when `pgain` has opened one. -/
  numcenters : Nat

variable (kmedian : Kmedian)

/-- The points before `pkmedian`, with any value of `k`. -/
def start (points : Points Value) (k : Nat) : State where
  phase := .begin
  points := points
  k := k
  cost := num 0
  hiz := num 0
  loz := num 0
  z := num 0
  i := 0
  numfeasible := 0
  change := num 0
  iteration := 0
  kfinal := 0

/-- `(hiz+loz)/2.0`. -/
def middle (hiz loz : Value) : Value := binary64.div (binary64.sum hiz loz) (num 2)

/-- A call of `pspeedy` on the points. The price is converted to `float`. -/
def seed (rand : Nat → Nat) (points : Points Value) (s : State) : State :=
  let seeded := pspeedy points rand (binary32.convert s.z)
  { s with points := seeded.1, k := seeded.2.1, cost := seeded.2.2 }

/-- The part of `pkmedian` before the loops. -/
def stepBegin (choice : Choice) (s : State) : State :=
  let hiz := hizOf s.points kmedian.parts
  let s := { s with hiz := hiz, loz := num 0, z := middle hiz (num 0) }
  if s.points.num ≤ kmedian.kmax then
    { s with
      phase := .few
      points := { s.points with
        p := fun idx =>
          if idx < s.points.num then { s.points.p idx with assign := idx, cost := num 0 }
          else s.points.p idx }
      cost := num 0
      kfinal := s.k }
  else { seed choice.rand (s.points.shuffle choice.shuffled) s with phase := .retry, i := 0 }

/-- The loop that gives `pspeedy` `SP` chances. -/
def stepRetry (choice : Choice) (s : State) : State :=
  if s.k < kmedian.kmin ∧ s.i < sp then { seed choice.rand s.points s with i := s.i + 1 }
  else { s with phase := .lower }

/-- The loop that takes the price to be too high. -/
def stepLower (choice : Choice) (s : State) : State :=
  if s.k < kmedian.kmin then
    let s := if sp ≤ s.i then { s with hiz := s.z, z := middle s.z s.loz, i := 0 } else s
    { seed choice.rand (s.points.shuffle choice.shuffled) s with i := s.i + 1 }
  else { s with phase := .select }

/-- The begin of `pFL`. -/
def callFL (accurate : Bool) (s : State) : State :=
  { s with phase := .test accurate, change := s.cost }

/-- `selectfeasible_fast` as far as the loops depend on it: the number of points that it selects.
Which points they are matters to `pgain` only, and so does `is_center`. -/
def stepSelect (s : State) : State :=
  callFL false { s with numfeasible := min s.points.num (kmedian.iterLog kmedian.kmin) }

/-- `1.0*e`, where `e` is a `float` argument of `pFL`. -/
def threshold (accurate : Bool) : Value :=
  binary64.mul (num 1)
    (binary32.convert (binary64.ofRat (if accurate then 1 / 1000 else 1 / 10)))

/-- The number of centers seems good. No value here is `nan`. -/
def Good (k : Nat) : Prop :=
  (¬binary64.mul (binary64.ofRat (11 / 10)) (binary64.ofRat kmedian.kmax) < binary64.ofRat k ∧
    ¬binary64.ofRat k < binary64.mul (binary64.ofRat (9 / 10)) (binary64.ofRat kmedian.kmin)) ∨
    (k ≤ kmedian.kmax + 2 ∧ kmedian.kmin ≤ k + 2)

instance (k : Nat) : Decidable (kmedian.Good k) := inferInstanceAs (Decidable (_ ∨ _))

/-- The test of the loop of `pFL` is passed. -/
def Passes (accurate : Bool) (s : State) : Prop :=
  threshold accurate < binary64.div s.change s.cost

instance (accurate : Bool) (s : State) : Decidable (Passes accurate s) :=
  inferInstanceAs (Decidable (_ < _))

/-- The test of the loop of `pFL`, and what comes after the call, whose result is a `float`. -/
def stepTest (accurate : Bool) (s : State) : State :=
  if Passes accurate s then { s with phase := .gain accurate, change := num 0, iteration := 0 }
  else if accurate = false ∧ kmedian.Good s.k then
    callFL true { s with cost := binary32.convert s.cost }
  else { s with phase := .adjust, cost := binary32.convert s.cost }

/-- What `pgain` returns: nothing is saved where no median is opened. -/
def pgain (glCostOfOpeningX : Value) : Value :=
  if glCostOfOpeningX < num 0 then glCostOfOpeningX.neg else num 0

/-- An iteration of `pFL`, or the end of the loop. -/
def stepGain (choice : Choice) (accurate : Bool) (s : State) : Option State :=
  if s.iteration < kmedian.iterLog kmedian.kmax then
    if 0 < s.numfeasible then
      some { s with
        k := if choice.glCostOfOpeningX < num 0 then choice.numcenters else s.k
        change := binary64.sum s.change (pgain choice.glCostOfOpeningX)
        iteration := s.iteration + 1 }
    else none
  else some { s with phase := .test accurate, cost := binary64.sub s.cost s.change }

/-- The search for the price. -/
def stepAdjust (s : State) : State :=
  let k := binary64.ofRat s.k
  let s := if kmedian.kmax < s.k then
      let z := middle s.hiz s.z
      { s with
        loz := s.z
        z := z
        cost := binary64.sum s.cost (binary64.mul (binary64.sub z s.z) k) }
    else s
  let s := if s.k < kmedian.kmin then
      let z := middle s.z s.loz
      { s with
        hiz := s.z
        z := z
        cost := binary64.sum s.cost (binary64.mul (binary64.sub z s.z) k) }
    else s
  if (s.k ≤ kmedian.kmax ∧ kmedian.kmin ≤ s.k) ∨
      ¬s.loz < binary64.mul (binary64.ofRat (999 / 1000)) s.hiz then
    { s with phase := .done, kfinal := s.k }
  else callFL false s

/-- One step of `pkmedian`. It stops when an iteration of `pFL` has no feasible point. -/
def step (choice : Choice) (s : State) : Option State :=
  match s.phase with
  | .begin => some (kmedian.stepBegin choice s)
  | .retry => some (kmedian.stepRetry choice s)
  | .lower => some (kmedian.stepLower choice s)
  | .select => some (kmedian.stepSelect s)
  | .test accurate => some (kmedian.stepTest accurate s)
  | .gain accurate => kmedian.stepGain choice accurate s
  | .adjust => some (kmedian.stepAdjust s)
  | .few => none
  | .done => none

end Kmedian

end P3arsec.Streamcluster.Rounded
