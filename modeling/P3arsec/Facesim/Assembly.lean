import P3arsec.Facesim.ConjugateGradients
import P3arsec.Lib.Writes
import Mathlib.LinearAlgebra.Matrix.Notation

/-!
# The assembly of forces and stiffness

`DIAGONALIZED_FINITE_VOLUME_3D` adds up what the tetrahedrons give to their nodes and edges. The
serial functions pass over the tetrahedrons and the segments of the mesh. In the parallel ones each
partition passes over all tetrahedrons that touch its nodes and keeps its own copies of the edges
that leave its range.
-/

namespace P3arsec.Facesim

open P3arsec.Lib

variable {K : Type*} [Field K] {N T m : Nat}

/-- `MATRIX_3X3`. -/
abbrev Matrix3 (K : Type*) := Matrix (Fin 3) (Fin 3) K

/-- A tetrahedral mesh with the lists that its initialisation builds. -/
structure TetrahedronMesh (N T : Nat) where
  tetrahedrons : Fin T → Fin 4 → Fin N
  distinct : ∀ t, Function.Injective (tetrahedrons t)
  neighborNodes : Fin N → List (Fin N)
  nodup_neighborNodes : ∀ i, (neighborNodes i).Nodup
  mem_neighborNodes : ∀ i j, j ∈ neighborNodes i ↔
    i ≠ j ∧ ∃ t v w, tetrahedrons t v = i ∧ tetrahedrons t w = j
  incidentTetrahedrons : Fin N → List (Fin T)
  nodup_incidentTetrahedrons : ∀ i, (incidentTetrahedrons i).Nodup
  mem_incidentTetrahedrons : ∀ i t, t ∈ incidentTetrahedrons i ↔ ∃ v, tetrahedrons t v = i
  /-- The segments of `segment_mesh`: each pair of neighbours once, in one of its two orders. -/
  segments : List (Fin N × Fin N)
  count_segments : ∀ i j, segments.count (i, j) + segments.count (j, i) =
    if j ∈ neighborNodes i then 1 else 0
  tetrahedronEdges : Fin T → List (Fin N × Fin N)
  nodup_tetrahedronEdges : ∀ t, (tetrahedronEdges t).Nodup
  mem_tetrahedronEdges : ∀ t e, e ∈ tetrahedronEdges t ↔
    e ∈ segments ∧ (∃ v, tetrahedrons t v = e.1) ∧ ∃ w, tetrahedrons t w = e.2

/-- What the decomposition and the constitutive model give for each tetrahedron. -/
structure Material (K : Type*) (T : Nat) where
  /-- `dG` for the `dDs` that has its one at row `k` and column `l`. -/
  dG : Fin T → Fin 3 → Fin 3 → Matrix3 K
  forces : Fin T → Matrix3 K

namespace Material

variable (material : Material K T)

/-- The rows of `dF_dX` from the second one on. -/
def dFdXRows (t : Fin T) (l : Fin 3) : Fin 4 → Matrix3 K :=
  let block (j : Fin 3) : Matrix3 K := fun k i => material.dG t k l i j
  Fin.cons (-∑ j, block j) block

/-- `dF_dX`. -/
def dFdX (t : Fin T) : Fin 4 → Fin 4 → Matrix3 K :=
  Fin.cons (fun j => -∑ l, material.dFdXRows t l j) (material.dFdXRows t)

/-- The forces on the nodes of a tetrahedron. -/
def nodeForces (t : Fin T) : Fin 4 → TV K :=
  let column (j : Fin 3) : TV K := fun i => material.forces t i j
  Fin.cons (-∑ j, column j) column

end Material

section

/-- Two is at least two. -/
theorem atLeastTwo_two : Nat.AtLeastTwo 2 := inferInstance

attribute [local instance] atLeastTwo_two

/-- `Symmetric_Part`. -/
def symmetricPart (A : Matrix3 K) : Matrix3 K := (1 / 2 : K) • (A + A.transpose)

end

/-- An entry of `node_stiffness` or of an edge stiffness. An edge is named by its nodes, since no
list of edges has a pair of nodes twice. -/
inductive Entry (N : Nat) where
  | node (i : Fin N)
  | edge (e : Fin N × Fin N)
  deriving DecidableEq

/-- `node_stiffness` and the edge stiffness. -/
abbrev Stiffness (K : Type*) (N : Nat) := Entry N → Matrix3 K

namespace TetrahedronMesh

variable (mesh : TetrahedronMesh N T) (material : Material K T)

/-- The loop that finds a node among the vertices of a tetrahedron. -/
def vertexIndex (t : Fin T) (i : Fin N) : Option (Fin 4) :=
  (List.finRange 4).find? fun v => i = mesh.tetrahedrons t v

/-- What a tetrahedron adds to an edge. Where the assertion of the source fails this is zero. -/
def edgeBlock (t : Fin T) (e : Fin N × Fin N) : Matrix3 K :=
  match mesh.vertexIndex t e.1, mesh.vertexIndex t e.2 with
  | some a, some b => material.dFdX t a b
  | _, _ => 0

/-- `Update_Position_Based_State_Serial`, with both stiffness arrays in use. -/
def updateSerial : Task (Entry N) (Matrix3 K) where
  clears := (List.finRange N).map .node ++ mesh.segments.map .edge
  adds := (List.finRange T).flatMap fun t =>
    ((List.finRange 4).map fun v =>
      (.node (mesh.tetrahedrons t v), symmetricPart (material.dFdX t v v))) ++
    (mesh.tetrahedronEdges t).map fun e => (.edge e, mesh.edgeBlock material t e)

/-- `Add_Velocity_Independent_Forces_Serial`. -/
def forcesSerial : Task (Fin N) (TV K) where
  clears := []
  adds := (List.finRange T).flatMap fun t =>
    (List.finRange 4).map fun v => (mesh.tetrahedrons t v, material.nodeForces t v)

/-- The two additions of an edge to the force differential. -/
def edgeDifferential (stiffness : Stiffness K N) (dX : Full K N) (e : Fin N × Fin N) :
    List (Fin N × TV K) :=
  [(e.1, (stiffness (.edge e)).mulVec (dX e.2)),
    (e.2, (stiffness (.edge e)).transpose.mulVec (dX e.1))]

/-- `Add_Force_Differential_Serial`, with both stiffness arrays in use. -/
def differentialSerial (stiffness : Stiffness K N) (dX : Full K N) : Task (Fin N) (TV K) where
  clears := []
  adds := ((List.finRange N).map fun v => (v, (stiffness (.node v)).mulVec (dX v))) ++
    mesh.segments.flatMap (edgeDifferential stiffness dX)

/-- Whether a node is in a range. Nodes are numbered from one. -/
abbrev InRange (range : Nat × Nat) (i : Fin N) : Prop :=
  range.1 ≤ (i : Nat) + 1 ∧ (i : Nat) + 1 ≤ range.2

/-- The `extended_tetrahedrons` of a partition, by their parents. -/
def extendedTetrahedrons (range : Nat × Nat) : List (Fin T) :=
  (nodes N range).flatMap fun i => (mesh.incidentTetrahedrons i).filter fun t =>
    ¬∃ v, range.1 ≤ (mesh.tetrahedrons t v : Nat) + 1 ∧ mesh.tetrahedrons t v < i

/-- The `extended_edges` in `internal_edge_ranges`. -/
def internalEdges (range : Nat × Nat) : List (Fin N × Fin N) :=
  (nodes N range).flatMap fun i =>
    (((mesh.neighborNodes i).filter fun j => InRange range j ∧ i < j).mergeSort).map (i, ·)

/-- The `extended_edges` in `external_edge_ranges`. -/
def externalEdges (range : Nat × Nat) : List (Fin N × Fin N) :=
  (nodes N range).flatMap fun i =>
    (((mesh.neighborNodes i).filter fun j => ¬InRange range j).mergeSort).map (i, ·)

/-- The `extended_edges` of a partition. -/
def extendedEdges (range : Nat × Nat) : List (Fin N × Fin N) :=
  mesh.internalEdges range ++ mesh.externalEdges range

variable (ranges : Fin m → Nat × Nat)

/-- `incident_extended_edges`. -/
def incidentExtendedEdges (i : Fin N) : List (Fin N × Fin N) :=
  (List.finRange m).flatMap fun p =>
    ((mesh.internalEdges (ranges p)).filter fun e => e.1 = i ∨ e.2 = i) ++
      (mesh.externalEdges (ranges p)).filter fun e => e.1 = i

/-- `Extended_Segment`. -/
def extendedSegment (i j : Fin N) : Option (Fin N × Fin N) :=
  (mesh.incidentExtendedEdges ranges i).find? fun e => e.1 = j ∨ e.2 = j

/-- An entry of `extended_tetrahedron_extended_edges`. -/
def extendedTetrahedronEdge (p : Fin m) (t : Fin T) (pair : Fin 4 × Fin 4) :
    Option (Fin N × Fin N) :=
  let i := mesh.tetrahedrons t pair.1
  let j := mesh.tetrahedrons t pair.2
  if InRange (ranges p) i then mesh.extendedSegment ranges i j
  else if InRange (ranges p) j then mesh.extendedSegment ranges j i
  else none

section

/-- Four is not zero. -/
theorem neZero_four : NeZero 4 := inferInstance

-- the instance has a name, so that the literals are the same terms in all builds
attribute [local instance] neZero_four

/-- The pairs of vertices, in the order of the edges of a tetrahedron. -/
def vertexPairs : List (Fin 4 × Fin 4) := [(0, 1), (0, 2), (0, 3), (1, 2), (1, 3), (2, 3)]

end

/-- The vertices of a tetrahedron in a range. -/
def verticesIn (range : Nat × Nat) (t : Fin T) : List (Fin 4) :=
  (List.finRange 4).filter fun v => InRange range (mesh.tetrahedrons t v)

/-- `Update_Position_Based_State_Helper`. -/
def updateHelper (p : Fin m) : Task (Entry N) (Matrix3 K) where
  clears := (nodes N (ranges p)).map .node ++ (mesh.extendedEdges (ranges p)).map .edge
  adds := (mesh.extendedTetrahedrons (ranges p)).flatMap fun t =>
    ((mesh.verticesIn (ranges p) t).map fun v =>
      (.node (mesh.tetrahedrons t v), symmetricPart (material.dFdX t v v))) ++
    (vertexPairs.filterMap (mesh.extendedTetrahedronEdge ranges p t)).map fun e =>
      (.edge e, mesh.edgeBlock material t e)

/-- `Add_Velocity_Independent_Forces_Helper`. -/
def forcesHelper (p : Fin m) : Task (Fin N) (TV K) where
  clears := []
  adds := (mesh.extendedTetrahedrons (ranges p)).flatMap fun t =>
    (mesh.verticesIn (ranges p) t).map fun v => (mesh.tetrahedrons t v, material.nodeForces t v)

/-- `Add_Force_Differential_Helper`. -/
def differentialHelper (stiffness : Stiffness K N) (dX : Full K N) (p : Fin m) :
    Task (Fin N) (TV K) where
  clears := []
  adds := ((nodes N (ranges p)).map fun v => (v, (stiffness (.node v)).mulVec (dX v))) ++
    (mesh.internalEdges (ranges p)).flatMap (edgeDifferential stiffness dX) ++
    (mesh.externalEdges (ranges p)).map fun e => (e.1, (stiffness (.edge e)).mulVec (dX e.2))

end TetrahedronMesh

end P3arsec.Facesim
