import P3arsec.Fluidanimate.Grid

/-!
# Collisions with the walls of the domain

`processCollisions` of the serial version walks the six walls one after the other and adds
the penalty of a wall to every particle of its cells. `processCollisionsMT` of the FastFlow
version walks the cells of each grid once, skips the cells that its test calls interior and
adds the penalties of all walls of a cell to its particles. The last operand of that test
compares two flags where the others are alternatives (`wallTest`), so the cells on exactly
one of the walls `iy == ny-1` and `iz == nz-1`, and on none of the other four, are skipped
(`not_wallTest_iff`). The two versions agree on a particle of every other cell, and on a
particle of a skipped one exactly when the penalty it misses is zero.
-/

namespace P3arsec.Fluidanimate

open P3arsec.Lib

variable {α : Type} [Field α] [LinearOrder α]

/-- The constants of the collision phase. -/
structure Collision (α : Type) where
  /-- Time step. -/
  timeStep : α
  /-- Particle size. -/
  parSize : α
  /-- Distance below which a penalty is ignored. -/
  epsilon : α
  /-- Stiffness of the walls. -/
  stiffnessCollisions : α
  /-- Damping of the walls. -/
  damping : α
  /-- Lower corner of the domain. -/
  domainMin : Vec3 α
  /-- Upper corner of the domain. -/
  domainMax : Vec3 α

/-- The six walls of the domain, in the order in which the code handles them. -/
inductive Wall where
  /-- `ix == 0`. -/
  | minX
  /-- `ix == nx-1`. -/
  | maxX
  /-- `iy == 0`. -/
  | minY
  /-- `iy == ny-1`. -/
  | maxY
  /-- `iz == 0`. -/
  | minZ
  /-- `iz == nz-1`. -/
  | maxZ
  deriving DecidableEq, Repr

/-- The walls in code order. -/
def walls : List Wall := [.minX, .maxX, .minY, .maxY, .minZ, .maxZ]

namespace Collision

variable (c : Collision α)

/-- `diff = parSize - (pos - domainMin)`, and the change of the acceleration when it is more
than `epsilon`. -/
def pushMin (domainMin pos v a : α) : α :=
  let diff := c.parSize - (pos - domainMin)
  if diff > c.epsilon then a + (c.stiffnessCollisions * diff - c.damping * v) else a

/-- `diff = parSize - (domainMax - pos)`, and the change of the acceleration when it is more
than `epsilon`. -/
def pushMax (domainMax pos v a : α) : α :=
  let diff := c.parSize - (domainMax - pos)
  if diff > c.epsilon then a - (c.stiffnessCollisions * diff + c.damping * v) else a

/-- The change that one wall makes to the acceleration of a particle. -/
def push (wall : Wall) (pos v a : Vec3 α) : Vec3 α :=
  match wall with
  | .minX => { a with x := c.pushMin c.domainMin.x pos.x v.x a.x }
  | .maxX => { a with x := c.pushMax c.domainMax.x pos.x v.x a.x }
  | .minY => { a with y := c.pushMin c.domainMin.y pos.y v.y a.y }
  | .maxY => { a with y := c.pushMax c.domainMax.y pos.y v.y a.y }
  | .minZ => { a with z := c.pushMin c.domainMin.z pos.z v.z a.z }
  | .maxZ => { a with z := c.pushMax c.domainMax.z pos.z v.z a.z }

/-- The predicted position `p + hv * timeStep`. -/
def predicted (p hv : Vec3 α) : Vec3 α :=
  ⟨p.x + hv.x * c.timeStep, p.y + hv.y * c.timeStep, p.z + hv.z * c.timeStep⟩

/-- The penalty of a lower wall, zero where the particle does not reach it. -/
def penaltyMin (domainMin pos v : α) : α :=
  let diff := c.parSize - (pos - domainMin)
  if diff > c.epsilon then c.stiffnessCollisions * diff - c.damping * v else 0

/-- The penalty of an upper wall, zero where the particle does not reach it. -/
def penaltyMax (domainMax pos v : α) : α :=
  let diff := c.parSize - (domainMax - pos)
  if diff > c.epsilon then c.stiffnessCollisions * diff + c.damping * v else 0

/-- The penalty of a wall for a particle: what the wall adds to, or takes from, the
acceleration along its axis. -/
def penalty (wall : Wall) (pos v : Vec3 α) : α :=
  match wall with
  | .minX => c.penaltyMin c.domainMin.x pos.x v.x
  | .maxX => c.penaltyMax c.domainMax.x pos.x v.x
  | .minY => c.penaltyMin c.domainMin.y pos.y v.y
  | .maxY => c.penaltyMax c.domainMax.y pos.y v.y
  | .minZ => c.penaltyMin c.domainMin.z pos.z v.z
  | .maxZ => c.penaltyMax c.domainMax.z pos.z v.z

/-- The lower wall adds its penalty. -/
theorem pushMin_eq (domainMin pos v a : α) :
    c.pushMin domainMin pos v a = a + c.penaltyMin domainMin pos v := by
  simp only [pushMin, penaltyMin]
  split <;> simp

/-- The upper wall subtracts its penalty. -/
theorem pushMax_eq (domainMax pos v a : α) :
    c.pushMax domainMax pos v a = a - c.penaltyMax domainMax pos v := by
  simp only [pushMax, penaltyMax]
  split <;> simp

/-- A wall leaves an acceleration as it is exactly when its penalty is zero. -/
theorem push_eq_self_iff (wall : Wall) (pos v a : Vec3 α) :
    c.push wall pos v a = a ↔ c.penalty wall pos v = 0 := by
  cases wall <;> simp [push, penalty, pushMin_eq, pushMax_eq, Vec3.ext_iff]

end Collision

namespace Sim

variable (sim : Sim)

/-- The cell lies on the wall. -/
def Touches (wall : Wall) (cell : Coord) : Prop :=
  match wall with
  | .minX => cell.ix = 0
  | .maxX => cell.ix = sim.nx - 1
  | .minY => cell.iy = 0
  | .maxY => cell.iy = sim.ny - 1
  | .minZ => cell.iz = 0
  | .maxZ => cell.iz = sim.nz - 1

instance (wall : Wall) (cell : Coord) : Decidable (sim.Touches wall cell) := by
  cases wall <;> exact inferInstanceAs (Decidable (_ = _))

/-- The test of `ProcessCollisionsMT`:
`(ix==0)||(iy==0)||(iz==0)||(ix==(nx-1))||(iy==(ny-1))==(iz==(nz-1))`. Its last operand is
the comparison of the last two flags. -/
def wallTest (cell : Coord) : Bool :=
  cell.ix == 0 || cell.iy == 0 || cell.iz == 0 || cell.ix == sim.nx - 1 ||
    (cell.iy == sim.ny - 1) == (cell.iz == sim.nz - 1)

/-- The changes of all walls of a cell, in the order of the tests of `ProcessCollisionsMT`. -/
def collide (c : Collision α) (cell : Coord) (pos v a : Vec3 α) : Vec3 α :=
  let a := if cell.ix = 0 then c.push .minX pos v a else a
  let a := if cell.ix = sim.nx - 1 then c.push .maxX pos v a else a
  let a := if cell.iy = 0 then c.push .minY pos v a else a
  let a := if cell.iy = sim.ny - 1 then c.push .maxY pos v a else a
  let a := if cell.iz = 0 then c.push .minZ pos v a else a
  let a := if cell.iz = sim.nz - 1 then c.push .maxZ pos v a else a
  a

/-- One iteration of a loop over particles that changes the acceleration of the current one,
from its predicted position and its velocity. -/
def accelerate (c : Collision α) (change : Vec3 α → Vec3 α → Vec3 α → Vec3 α) (block : Addr)
    (j : Nat) (mem : Mem α) : Option (Mem α) :=
  let ji := (block, j % sim.perCell)
  let pos := c.predicted (mem.p ji) (mem.hv ji)
  some { mem with a := Function.update mem.a ji (change pos (mem.v ji) (mem.a ji)) }

/-- `ProcessCollisionsMT` for one thread id. -/
def processCollisionsGrid (c : Collision α) (grid : Grid) (mem : Mem α) : Option (Mem α) :=
  grid.cells.foldlM (fun mem cell =>
    if sim.wallTest cell then
      sim.forCell (sim.accelerate c (sim.collide c cell)) (sim.index cell) mem
    else some mem) mem

/-- `ProcessCollisionsMT`, applied for all thread ids. -/
def processCollisionsMT (c : Collision α) (mem : Mem α) : Option (Mem α) :=
  sim.grids.foldlM (fun mem grid => sim.processCollisionsGrid c grid mem) mem

/-- The cells of a wall in the order of the two loops of the serial version. -/
def wallCells (wall : Wall) : List Coord :=
  match wall with
  | .minX => (span 0 sim.ny).flatMap fun y => (span 0 sim.nz).map fun z => ⟨0, y, z⟩
  | .maxX => (span 0 sim.ny).flatMap fun y => (span 0 sim.nz).map fun z => ⟨sim.nx - 1, y, z⟩
  | .minY => (span 0 sim.nx).flatMap fun x => (span 0 sim.nz).map fun z => ⟨x, 0, z⟩
  | .maxY => (span 0 sim.nx).flatMap fun x => (span 0 sim.nz).map fun z => ⟨x, sim.ny - 1, z⟩
  | .minZ => (span 0 sim.nx).flatMap fun x => (span 0 sim.ny).map fun y => ⟨x, y, 0⟩
  | .maxZ => (span 0 sim.nx).flatMap fun x => (span 0 sim.ny).map fun y => ⟨x, y, sim.nz - 1⟩

/-- The serial version's loop along one wall. -/
def processWall (c : Collision α) (wall : Wall) (mem : Mem α) : Option (Mem α) :=
  (sim.wallCells wall).foldlM
    (fun mem cell => sim.forCell (sim.accelerate c (c.push wall)) (sim.index cell) mem) mem

/-- `ProcessCollisions` of the serial version. -/
def processCollisions (c : Collision α) (mem : Mem α) : Option (Mem α) :=
  walls.foldlM (fun mem wall => sim.processWall c wall mem) mem

/-- The test skips exactly the cells on one of the upper y and z walls and on no other wall. -/
theorem not_wallTest_iff {cell : Coord} :
    sim.wallTest cell = false ↔
      (cell.ix ≠ 0 ∧ cell.iy ≠ 0 ∧ cell.iz ≠ 0 ∧ cell.ix ≠ sim.nx - 1) ∧
        (cell.iy = sim.ny - 1 ∧ cell.iz ≠ sim.nz - 1 ∨
          cell.iy ≠ sim.ny - 1 ∧ cell.iz = sim.nz - 1) := by
  by_cases onY : cell.iy = sim.ny - 1 <;> by_cases onZ : cell.iz = sim.nz - 1 <;>
    simp [wallTest, onY, onZ] <;> tauto

/-- The cells of a wall are those inside that touch it. -/
theorem mem_wallCells {wall : Wall} {cell : Coord} :
    cell ∈ sim.wallCells wall ↔ sim.Inside cell ∧ sim.Touches wall cell := by
  obtain ⟨ix, iy, iz⟩ := cell
  have positiveX := sim.nx_pos
  have positiveY := sim.ny_pos
  have positiveZ := sim.nz_pos
  cases wall <;>
    simp only [wallCells, List.mem_flatMap, List.mem_map, mem_span, Coord.mk.injEq, Inside,
      Touches] <;> grind

/-- A loop along a wall visits no cell twice. -/
theorem wallCells_nodup (wall : Wall) : (sim.wallCells wall).Nodup := by
  -- The two loop variables are coordinates of the cell, in one of three pairs of axes.
  have pairs : ∀ (cellOf : Nat → Nat → Coord) (outer inner : Coord → Nat) (n m : Nat),
      (∀ i j, outer (cellOf i j) = i) → (∀ i j, inner (cellOf i j) = j) →
      ((span 0 n).flatMap fun i => (span 0 m).map fun j => cellOf i j).Nodup := by
    intro cellOf outer inner n m first second
    apply nodup_flatMap_of_tag outer (span_nodup _ _)
    · intro i _
      refine (span_nodup _ _).map fun j j' same => ?_
      rw [← second i j, ← second i j', same]
    · intro i _ cell member
      obtain ⟨j, _, rfl⟩ := List.mem_map.mp member
      exact first i j
  cases wall with
  | minX => exact pairs _ Coord.iy Coord.iz _ _ (fun _ _ => rfl) (fun _ _ => rfl)
  | maxX => exact pairs _ Coord.iy Coord.iz _ _ (fun _ _ => rfl) (fun _ _ => rfl)
  | minY => exact pairs _ Coord.ix Coord.iz _ _ (fun _ _ => rfl) (fun _ _ => rfl)
  | maxY => exact pairs _ Coord.ix Coord.iz _ _ (fun _ _ => rfl) (fun _ _ => rfl)
  | minZ => exact pairs _ Coord.ix Coord.iy _ _ (fun _ _ => rfl) (fun _ _ => rfl)
  | maxZ => exact pairs _ Coord.ix Coord.iy _ _ (fun _ _ => rfl) (fun _ _ => rfl)

end Sim

namespace Chains

variable {sim : Sim} {mem : Mem α} (chains : Chains sim mem.next)

/-- The predicted position of a particle. -/
def position (c : Collision α) (particle : ParticleId) : Vec3 α :=
  c.predicted (mem.p (chains.slot particle)) (mem.hv (chains.slot particle))

omit [LinearOrder α] in
/-- One walk over a cell changes the accelerations of its particles and nothing else. -/
theorem forCell_accelerate (c : Collision α) (change : Vec3 α → Vec3 α → Vec3 α → Vec3 α)
    {cell : Coord} (inside : sim.Inside cell) (a : Slot → Vec3 α) :
    ∃ a', sim.forCell (sim.accelerate c change) (sim.index cell) { mem with a := a } =
        some { mem with a := a' } ∧
      ∀ particle, sim.Holds particle → a' (chains.slot particle) =
        if particle.1 = cell then
          change (chains.position c particle) (mem.v (chains.slot particle))
            (a (chains.slot particle))
        else a (chains.slot particle) := by
  let amend := fun (a : Slot → Vec3 α) (j : Nat) => modifyAt a (chains.slot (cell, j))
    (change (chains.position c (cell, j)) (mem.v (chains.slot (cell, j))))
  have run : ∀ (js : List Nat) (a : Slot → Vec3 α),
      js.foldlM (fun mem j => sim.accelerate c change (chains.block cell (j / sim.perCell)) j mem)
        { mem with a := a } = some { mem with a := js.foldl amend a } := by
    intro js
    induction js with
    | nil => exact fun _ => rfl
    | cons j js ih => exact fun a => ih (amend a j)
  refine ⟨(List.range (sim.cnumPars (sim.index cell))).foldl amend a, ?_, ?_⟩
  · rw [chains.forCell_eq inside ?_ { mem with a := a } rfl]
    · exact run _ a
    · intro j before after links ran
      cases ran
      exact links
  · intro particle holds
    rw [foldl_modifyAt]
    by_cases here : particle.1 = cell
    · subst here
      have bound : particle.2 ∈ List.range (sim.cnumPars (sim.index particle.1)) :=
        List.mem_range.mpr holds.2
      rw [if_pos rfl, filter_eq_singleton List.nodup_range bound]
      · rfl
      · intro j bound
        have held : sim.Holds (particle.1, j) := ⟨holds.1, List.mem_range.mp bound⟩
        rw [decide_eq_true_iff]
        constructor
        · intro same
          exact congrArg Prod.snd (chains.slot_injective held holds same)
        · intro same
          rw [same]
    · have nothing : (List.range (sim.cnumPars (sim.index cell))).filter
          (fun j => chains.slot (cell, j) = chains.slot particle) = [] := by
        apply List.filter_eq_nil_iff.mpr
        intro j bound
        have held : sim.Holds (cell, j) := ⟨inside, List.mem_range.mp bound⟩
        rw [decide_eq_true_iff]
        intro same
        exact here (congrArg Prod.fst (chains.slot_injective held holds same)).symm
      rw [if_neg here, nothing]
      rfl

omit [LinearOrder α] in
/-- A loop of walks leaves in the acceleration of a particle the changes of the walks over its
cell, in loop order. -/
theorem foldlM_accelerate {ι : Type} (c : Collision α) (cellOf : ι → Coord)
    (change : ι → Vec3 α → Vec3 α → Vec3 α → Vec3 α) (work : List ι)
    (inside : ∀ item ∈ work, sim.Inside (cellOf item)) (a : Slot → Vec3 α) :
    ∃ a', work.foldlM (fun mem item =>
          sim.forCell (sim.accelerate c (change item)) (sim.index (cellOf item)) mem)
            { mem with a := a } =
        some { mem with a := a' } ∧
      ∀ particle, sim.Holds particle → a' (chains.slot particle) =
        (work.filter fun item => particle.1 = cellOf item).foldl (fun value item =>
            change item (chains.position c particle) (mem.v (chains.slot particle)) value)
          (a (chains.slot particle)) := by
  induction work generalizing a with
  | nil => exact ⟨a, rfl, fun _ _ => rfl⟩
  | cons item work ih =>
    obtain ⟨middle, ran, changed⟩ :=
      chains.forCell_accelerate c (change item) (inside item List.mem_cons_self) a
    obtain ⟨last, rest, left⟩ :=
      ih (fun other member => inside other (List.mem_cons_of_mem item member)) middle
    refine ⟨last, ?_, fun particle holds => ?_⟩
    · rw [List.foldlM_cons, ran]
      exact rest
    · rw [left particle holds, changed particle holds]
      by_cases here : particle.1 = cellOf item <;> simp [here]

/-- What the FastFlow version leaves in the accelerations: all walls for the particles of a
cell that passes the test, nothing for the others. -/
theorem processCollisionsMT_eq (partitioned : sim.Partitioned) (c : Collision α) :
    ∃ a', sim.processCollisionsMT c mem = some { mem with a := a' } ∧
      ∀ particle, sim.Holds particle → a' (chains.slot particle) =
        if sim.wallTest particle.1 then
          sim.collide c particle.1 (chains.position c particle) (mem.v (chains.slot particle))
            (mem.a (chains.slot particle))
        else mem.a (chains.slot particle) := by
  obtain ⟨a', ran, left⟩ := chains.foldlM_accelerate c id (sim.collide c)
    ((sim.grids.flatMap Grid.cells).filter sim.wallTest)
    (fun cell member => partitioned.mem.mp (List.mem_of_mem_filter member)) mem.a
  refine ⟨a', ?_, fun particle holds => ?_⟩
  · rw [← ran, List.foldlM_filter, foldlM_flatMap]
    rfl
  · rw [left particle holds]
    have once : (sim.grids.flatMap Grid.cells).filter (fun cell => particle.1 = cell) =
        [particle.1] := by
      apply filter_eq_singleton partitioned.nodup (partitioned.mem.mpr holds.1)
      intro other member
      rw [decide_eq_true_iff, eq_comm]
    have visits : ((sim.grids.flatMap Grid.cells).filter sim.wallTest).filter
        (fun cell => particle.1 = id cell) = [particle.1].filter sim.wallTest := by
      rw [← once]
      exact List.filter_comm _ _ _
    rw [visits]
    cases passes : sim.wallTest particle.1 <;> simp [passes]

/-- What the serial version leaves in the accelerations: each wall of the cell once. -/
theorem processCollisions_eq (c : Collision α) :
    ∃ a', sim.processCollisions c mem = some { mem with a := a' } ∧
      ∀ particle, sim.Holds particle → a' (chains.slot particle) =
        sim.collide c particle.1 (chains.position c particle) (mem.v (chains.slot particle))
          (mem.a (chains.slot particle)) := by
  obtain ⟨a', ran, left⟩ := chains.foldlM_accelerate c Prod.snd
    (fun item : Wall × Coord => c.push item.1)
    (walls.flatMap fun wall => (sim.wallCells wall).map (wall, ·))
    (fun item member => by
      obtain ⟨wall, -, along⟩ := List.mem_flatMap.mp member
      obtain ⟨cell, onWall, rfl⟩ := List.mem_map.mp along
      exact (sim.mem_wallCells.mp onWall).1) mem.a
  refine ⟨a', ?_, fun particle holds => ?_⟩
  · rw [← ran, foldlM_flatMap]
    simp only [List.foldlM_map]
    rfl
  · rw [left particle holds]
    have once : ∀ wall, (sim.wallCells wall).filter (fun cell => particle.1 = cell) =
        if sim.Touches wall particle.1 then [particle.1] else [] := by
      intro wall
      split
      · rename_i touches
        apply filter_eq_singleton (sim.wallCells_nodup wall)
          (sim.mem_wallCells.mpr ⟨holds.1, touches⟩)
        intro other member
        rw [decide_eq_true_iff, eq_comm]
      · rename_i apart
        apply List.filter_eq_nil_iff.mpr
        intro other member
        rw [decide_eq_true_iff]
        intro same
        rw [same] at apart
        exact apart (sim.mem_wallCells.mp member).2
    have hits : (walls.flatMap fun wall => (sim.wallCells wall).map (wall, ·)).filter
          (fun item => particle.1 = item.2) =
        (walls.filter fun wall => sim.Touches wall particle.1).map (·, particle.1) := by
      rw [List.filter_flatMap, ← flatMap_if_singleton]
      apply List.flatMap_congr
      intro wall _
      rw [List.filter_map]
      simp only [Function.comp_def, once wall]
      split <;> rfl
    have step : ∀ (value : Vec3 α) (wall : Wall) (rest : List Wall),
        ((wall :: rest).filter fun wall => sim.Touches wall particle.1).foldl (fun value wall =>
            c.push wall (chains.position c particle) (mem.v (chains.slot particle)) value) value =
          (rest.filter fun wall => sim.Touches wall particle.1).foldl (fun value wall =>
              c.push wall (chains.position c particle) (mem.v (chains.slot particle)) value)
            (if sim.Touches wall particle.1 then
              c.push wall (chains.position c particle) (mem.v (chains.slot particle)) value
            else value) := by
      intro value wall rest
      by_cases touches : sim.Touches wall particle.1 <;> simp [touches]
    rw [hits, List.foldl_map]
    simp only [walls, step, List.filter_nil, List.foldl_nil]
    rfl

/-- The walls of a skipped cell leave an acceleration as it is exactly when their penalties
are zero. -/
theorem collide_skipped (c : Collision α) {cell : Coord} (skipped : sim.wallTest cell = false)
    (pos v a : Vec3 α) :
    sim.collide c cell pos v a = a ↔
      ∀ wall, sim.Touches wall cell → c.penalty wall pos v = 0 := by
  obtain ⟨⟨lowX, lowY, lowZ, highX⟩, oneWall⟩ := sim.not_wallTest_iff.mp skipped
  have touched : ∀ upper : Wall, (∀ wall, sim.Touches wall cell ↔ wall = upper) →
      sim.collide c cell pos v a = c.push upper pos v a →
      (sim.collide c cell pos v a = a ↔
        ∀ wall, sim.Touches wall cell → c.penalty wall pos v = 0) := by
    intro upper only moved
    rw [moved, Collision.push_eq_self_iff]
    simp only [only, forall_eq]
  rcases oneWall with ⟨highY, highZ⟩ | ⟨highY, highZ⟩
  · have wide : sim.ny - 1 ≠ 0 := highY ▸ lowY
    apply touched .maxY
    · intro wall
      cases wall <;> simp [Sim.Touches, *]
    · simp [Sim.collide, *]
  · have wide : sim.nz - 1 ≠ 0 := highZ ▸ lowZ
    apply touched .maxZ
    · intro wall
      cases wall <;> simp [Sim.Touches, *]
    · simp [Sim.collide, *]

/-- Every wall cell passes the test exactly on the grids that have no cell on one of the upper
y and z walls and on no other wall. -/
theorem wallTest_complete_iff :
    (∀ cell, sim.Inside cell → (∃ wall, sim.Touches wall cell) → sim.wallTest cell = true) ↔
      sim.nx ≤ 2 ∨ (sim.ny ≤ 1 ∨ sim.nz ≤ 2) ∧ (sim.nz ≤ 1 ∨ sim.ny ≤ 2) := by
  constructor
  · intro complete
    by_contra large
    have skips : ∀ cell, sim.Inside cell → (∃ wall, sim.Touches wall cell) →
        sim.wallTest cell ≠ false := by
      intro cell inside onWall
      rw [complete cell inside onWall]
      decide
    by_cases wide : 2 ≤ sim.ny ∧ 3 ≤ sim.nz
    · have inside : sim.Inside ⟨1, sim.ny - 1, 1⟩ := by
        simp only [Sim.Inside]
        omega
      apply skips _ inside ⟨.maxY, rfl⟩
      rw [Sim.not_wallTest_iff]
      dsimp only
      omega
    · have inside : sim.Inside ⟨1, 1, sim.nz - 1⟩ := by
        simp only [Sim.Inside]
        omega
      apply skips _ inside ⟨.maxZ, rfl⟩
      rw [Sim.not_wallTest_iff]
      dsimp only
      omega
  · intro small cell inside _
    by_contra failed
    obtain ⟨boundX, boundY, boundZ⟩ := inside
    have skipped := sim.not_wallTest_iff.mp (Bool.eq_false_iff.mpr failed)
    omega

/-- The two versions of the collision phase fault on no grid. They leave the same
accelerations exactly when every particle of a skipped cell has a zero penalty for the wall of
its cell, and the test passes on every wall cell exactly on the grids of
`wallTest_complete_iff`. -/
theorem processCollisionsMT_agrees_iff (partitioned : sim.Partitioned) (c : Collision α) :
    ∃ aMT aSerial, sim.processCollisionsMT c mem = some { mem with a := aMT } ∧
      sim.processCollisions c mem = some { mem with a := aSerial } ∧
      ((∀ particle, sim.Holds particle →
          aMT (chains.slot particle) = aSerial (chains.slot particle)) ↔
        ∀ particle, sim.Holds particle → sim.wallTest particle.1 = false →
          ∀ wall, sim.Touches wall particle.1 →
            c.penalty wall (chains.position c particle) (mem.v (chains.slot particle)) = 0) ∧
      ((∀ cell, sim.Inside cell → (∃ wall, sim.Touches wall cell) → sim.wallTest cell = true) ↔
        sim.nx ≤ 2 ∨ (sim.ny ≤ 1 ∨ sim.nz ≤ 2) ∧ (sim.nz ≤ 1 ∨ sim.ny ≤ 2)) := by
  obtain ⟨aMT, ranMT, leftMT⟩ := chains.processCollisionsMT_eq partitioned c
  obtain ⟨aSerial, ranSerial, leftSerial⟩ := chains.processCollisions_eq c
  refine ⟨aMT, aSerial, ranMT, ranSerial, ?_, wallTest_complete_iff⟩
  apply forall₂_congr
  intro particle holds
  rw [leftMT particle holds, leftSerial particle holds]
  cases passes : sim.wallTest particle.1 with
  | true => simp
  | false =>
    rw [if_neg (by decide), eq_comm, collide_skipped c passes]
    simp

end Chains

section Sample

/-- A domain of 27 cells in two grids, with one particle, in the cell `(1, 2, 1)`. -/
def sampleSim : Sim where
  perCell := 16
  perCell_pos := by decide
  nx := 3
  ny := 3
  nz := 3
  nx_pos := by decide
  ny_pos := by decide
  nz_pos := by decide
  cnumPars index := if index = 16 then 1 else 0
  grids := [⟨0, 0, 0, 3, 3, 2⟩, ⟨0, 0, 2, 3, 3, 3⟩]
  cellsBase := 0
  sizeofCell := 192
  offsetofP := 0
  sizeofVec3 := 12
  sizeofVec3_pos := by decide
  fits := by decide

/-- The constants on the unit cube. -/
def sampleCollision : Collision ℚ where
  timeStep := 1 / 200
  parSize := 1 / 5000
  epsilon := 1 / 10000000000
  stiffnessCollisions := 30000
  damping := 128
  domainMin := ⟨0, 0, 0⟩
  domainMax := ⟨1, 1, 1⟩

/-- The particle is at rest, closer to the upper y wall than its size. -/
def sampleMem : Mem ℚ where
  p _ := ⟨1 / 2, 9999 / 10000, 1 / 2⟩
  hv _ := ⟨0, 0, 0⟩
  v _ := ⟨0, 0, 0⟩
  a _ := ⟨0, 0, 0⟩
  density _ := 0
  next _ := none

/-- The blocks of the sample are the entries of the array `cells`. -/
def sampleChains : Chains sampleSim sampleMem.next :=
  Chains.ofHeads _ fun cell _ => by
    change (if sampleSim.index cell = 16 then 1 else 0) ≤ 16
    split <;> decide

/-- Two grids of a small domain. -/
theorem processCollisionsMT_agrees_iff_sample :
    sampleSim.Partitioned ∧
      ∃ aMT aSerial, sampleSim.processCollisionsMT sampleCollision sampleMem =
          some { sampleMem with a := aMT } ∧
        sampleSim.processCollisions sampleCollision sampleMem =
          some { sampleMem with a := aSerial } ∧
        ((∀ particle, sampleSim.Holds particle →
            aMT (sampleChains.slot particle) = aSerial (sampleChains.slot particle)) ↔
          ∀ particle, sampleSim.Holds particle → sampleSim.wallTest particle.1 = false →
            ∀ wall, sampleSim.Touches wall particle.1 →
              sampleCollision.penalty wall (sampleChains.position sampleCollision particle)
                (sampleMem.v (sampleChains.slot particle)) = 0) ∧
        ((∀ cell, sampleSim.Inside cell → (∃ wall, sampleSim.Touches wall cell) →
            sampleSim.wallTest cell = true) ↔
          sampleSim.nx ≤ 2 ∨ (sampleSim.ny ≤ 1 ∨ sampleSim.nz ≤ 2) ∧
            (sampleSim.nz ≤ 1 ∨ sampleSim.ny ≤ 2)) :=
  have partitioned : sampleSim.Partitioned := by decide +kernel
  ⟨partitioned, sampleChains.processCollisionsMT_agrees_iff partitioned sampleCollision⟩

/-- On the sample the serial version pushes the particle away from the upper y wall, and the
FastFlow version skips its cell. -/
theorem processCollisionsMT_skips_sample :
    sampleSim.Partitioned ∧
      (¬ ∀ particle, sampleSim.Holds particle →
        (sampleSim.processCollisionsMT sampleCollision sampleMem).map
            (fun mem => mem.a (sampleChains.slot particle)) =
          (sampleSim.processCollisions sampleCollision sampleMem).map
            (fun mem => mem.a (sampleChains.slot particle))) ∧
      ¬ ∀ cell, sampleSim.Inside cell → (∃ wall, sampleSim.Touches wall cell) →
        sampleSim.wallTest cell = true := by
  refine ⟨by decide +kernel, fun agree => ?_, fun complete => ?_⟩
  · have same := agree (⟨1, 2, 1⟩, 0) ⟨by decide, by decide⟩
    have unpushed : (sampleSim.processCollisionsMT sampleCollision sampleMem).map
        (fun mem => mem.a (sampleChains.slot (⟨1, 2, 1⟩, 0))) = some ⟨0, 0, 0⟩ := by
      decide +kernel
    have pushed : (sampleSim.processCollisions sampleCollision sampleMem).map
        (fun mem => mem.a (sampleChains.slot (⟨1, 2, 1⟩, 0))) = some ⟨0, -3, 0⟩ := by
      decide +kernel
    rw [unpushed, pushed] at same
    exact absurd same (by decide)
  · have passes := complete ⟨1, 2, 1⟩ (by decide) ⟨.maxY, by decide⟩
    exact absurd passes (by decide)

end Sample

end P3arsec.Fluidanimate
