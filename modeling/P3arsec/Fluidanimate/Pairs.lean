import P3arsec.Fluidanimate.Grid

/-!
# Interactions of pairs of particles

`ComputeDensitiesMT` and `ComputeForcesMT` share one nest of loops: for every particle of
every cell of every grid they walk the particles of the cell itself and of those of its 26
neighbours that have a smaller index, and treat a pair when the address of the neighbour's
particle is below the address of the particle. Within one cell the address picks one of the
two orders in which the pair comes up. Two particles of different cells come up in one
order only, so there the same test drops the pair when the particle of the cell with the
smaller index lies at the higher address, which takes an overflow block.
-/

namespace P3arsec.Fluidanimate

open P3arsec.Lib

namespace Vec3

variable {α : Type}

instance [Add α] : Add (Vec3 α) := ⟨fun u v => ⟨u.x + v.x, u.y + v.y, u.z + v.z⟩⟩

instance [Sub α] : Sub (Vec3 α) := ⟨fun u v => ⟨u.x - v.x, u.y - v.y, u.z - v.z⟩⟩

instance [Neg α] : Neg (Vec3 α) := ⟨fun u => ⟨-u.x, -u.y, -u.z⟩⟩

instance [Zero α] : Zero (Vec3 α) := ⟨⟨0, 0, 0⟩⟩

instance [AddCommGroup α] : AddCommGroup (Vec3 α) where
  add_assoc u v w := Vec3.ext (add_assoc _ _ _) (add_assoc _ _ _) (add_assoc _ _ _)
  zero_add u := Vec3.ext (zero_add _) (zero_add _) (zero_add _)
  add_zero u := Vec3.ext (add_zero _) (add_zero _) (add_zero _)
  add_comm u v := Vec3.ext (add_comm _ _) (add_comm _ _) (add_comm _ _)
  neg_add_cancel u := Vec3.ext (neg_add_cancel _) (neg_add_cancel _) (neg_add_cancel _)
  sub_eq_add_neg u v := Vec3.ext (sub_eq_add_neg _ _) (sub_eq_add_neg _ _) (sub_eq_add_neg _ _)
  nsmul := nsmulRec
  zsmul := zsmulRec

instance [Mul α] : HMul (Vec3 α) α (Vec3 α) := ⟨fun u s => ⟨u.x * s, u.y * s, u.z * s⟩⟩

instance [Div α] : HDiv (Vec3 α) α (Vec3 α) := ⟨fun u s => ⟨u.x / s, u.y / s, u.z / s⟩⟩

/-- Vectors are added by their coordinates. -/
theorem add_def [Add α] (u v : Vec3 α) : u + v = ⟨u.x + v.x, u.y + v.y, u.z + v.z⟩ := rfl

/-- Vectors are subtracted by their coordinates. -/
theorem sub_def [Sub α] (u v : Vec3 α) : u - v = ⟨u.x - v.x, u.y - v.y, u.z - v.z⟩ := rfl

/-- A vector is negated by its coordinates. -/
theorem neg_def [Neg α] (u : Vec3 α) : -u = ⟨-u.x, -u.y, -u.z⟩ := rfl

/-- A vector is multiplied by its coordinates. -/
theorem mul_def [Mul α] (u : Vec3 α) (s : α) : u * s = ⟨u.x * s, u.y * s, u.z * s⟩ := rfl

/-- A vector is divided by its coordinates. -/
theorem div_def [Div α] (u : Vec3 α) (s : α) : u / s = ⟨u.x / s, u.y / s, u.z / s⟩ := rfl

/-- `GetLengthSq`. -/
def lengthSq [Add α] [Mul α] (u : Vec3 α) : α := u.x * u.x + u.y * u.y + u.z * u.z

/-- A displacement and its opposite have one length. -/
theorem lengthSq_sub_comm [CommRing α] (u v : Vec3 α) : (u - v).lengthSq = (v - u).lengthSq := by
  simp only [lengthSq, sub_def]
  ring

end Vec3

/-- The constants of the density and force phases. -/
structure Smoothing (α : Type) where
  /-- Radius of the interactions. -/
  h : α
  /-- Coefficient of the pressure term. -/
  pressureCoeff : α
  /-- Coefficient of the viscosity term. -/
  viscosityCoeff : α
  /-- Twice the rest density. -/
  doubleRestDensity : α
  /-- The square root of the C library. -/
  sqrt : α → α

variable {α : Type} [Field α] [LinearOrder α]

namespace Smoothing

variable (k : Smoothing α)

omit [LinearOrder α] in
/-- The square of the radius. -/
def hSq : α := k.h * k.h

/-- The test `distSq < hSq` for two positions. -/
def Close (p p' : Vec3 α) : Prop := (p - p').lengthSq < k.hSq

instance (p p' : Vec3 α) : Decidable (k.Close p p') := inferInstanceAs (Decidable (_ < _))

/-- What `ComputeDensitiesMT` does to a pair of particles that passed the address test. -/
def treatDensity (cell neigh : Slot) (mem : Mem α) : Mem α :=
  let distSq := (mem.p cell - mem.p neigh).lengthSq
  if distSq < k.hSq then
    let t := k.hSq - distSq
    let tc := t * t * t
    { mem with density := addAt (addAt mem.density cell tc) neigh tc }
  else mem

/-- What `ComputeForcesMT` does to a pair of particles that passed the address test. -/
def treatForce (cell neigh : Slot) (mem : Mem α) : Mem α :=
  let disp := mem.p cell - mem.p neigh
  let distSq := disp.lengthSq
  if distSq < k.hSq then
    let dist := k.sqrt (max distSq (1 / 1000000000000))
    let hmr := k.h - dist
    let acc := disp * k.pressureCoeff * (hmr * hmr / dist) *
      (mem.density cell + mem.density neigh - k.doubleRestDensity)
    let acc := acc + (mem.v neigh - mem.v cell) * k.viscosityCoeff * hmr
    let acc := acc / (mem.density cell * mem.density neigh)
    { mem with a := modifyAt (addAt mem.a cell acc) neigh (· - acc) }
  else mem

/-- The density that two particles add to each other. -/
def densityTerm (mem : Mem α) (s s' : Slot) : α :=
  let t := k.hSq - (mem.p s - mem.p s').lengthSq
  t * t * t

/-- The acceleration that the second particle gives to the first. -/
def force (mem : Mem α) (s s' : Slot) : Vec3 α :=
  let disp := mem.p s - mem.p s'
  let dist := k.sqrt (max disp.lengthSq (1 / 1000000000000))
  let hmr := k.h - dist
  (disp * k.pressureCoeff * (hmr * hmr / dist) *
      (mem.density s + mem.density s' - k.doubleRestDensity) +
    (mem.v s' - mem.v s) * k.viscosityCoeff * hmr) / (mem.density s * mem.density s')

/-- Two particles are close to each other. -/
theorem close_comm (p p' : Vec3 α) : k.Close p p' ↔ k.Close p' p := by
  unfold Close
  rw [Vec3.lengthSq_sub_comm]

omit [LinearOrder α] in
/-- The two particles of a pair get one density term. -/
theorem densityTerm_comm (mem : Mem α) (s s' : Slot) :
    k.densityTerm mem s s' = k.densityTerm mem s' s := by
  unfold densityTerm
  rw [Vec3.lengthSq_sub_comm]

/-- The treatment of a pair by `ComputeForcesMT` adds opposite force terms. -/
theorem treatForce_eq (cell neigh : Slot) (mem : Mem α) :
    k.treatForce cell neigh mem =
      if k.Close (mem.p cell) (mem.p neigh) then
        let acc := k.force mem cell neigh
        { mem with a := addAt (addAt mem.a cell acc) neigh (-acc) }
      else mem := by
  simp only [treatForce, modifyAt_sub]
  rfl

/-- The two particles of a pair get opposite force terms. -/
theorem force_antisymm (mem : Mem α) (s s' : Slot) : k.force mem s s' = -k.force mem s' s := by
  unfold force
  dsimp only
  rw [Vec3.lengthSq_sub_comm (mem.p s), mul_comm (mem.density s), add_comm (mem.density s)]
  simp only [Vec3.add_def, Vec3.sub_def, Vec3.mul_def, Vec3.div_def, Vec3.neg_def,
    Vec3.mk.injEq]
  refine ⟨?_, ?_, ?_⟩ <;> ring

end Smoothing

namespace Sim

variable (sim : Sim)

/-- The steps `-1`, `0` and `1` along an axis. -/
def offsets : List Int := [-1, 0, 1]

/-- `InitNeighCellList`: the cell's own index, then the indices of the cells around it that
are smaller and have particles. -/
def initNeighCellList (ci cj ck : Nat) : List Nat :=
  let myIndex : Nat := (ck * sim.ny + cj) * sim.nx + ci
  myIndex :: offsets.flatMap fun di => offsets.flatMap fun dj => offsets.flatMap fun dk =>
    let ii : Int := ci + di
    let jj : Int := cj + dj
    let kk : Int := ck + dk
    if ii ≥ 0 ∧ ii < sim.nx ∧ jj ≥ 0 ∧ jj < sim.ny ∧ kk ≥ 0 ∧ kk < sim.nz then
      let index : Int := (kk * sim.ny + jj) * sim.nx + ii
      if index < myIndex ∧ sim.cnumPars index.toNat ≠ 0 then [index.toNat] else []
    else []

/-- The innermost loop body: the address test lets one of the two orders of a pair through. -/
def treatPair (treat : Slot → Slot → Mem α → Mem α) (cell : Addr) (ipar : Nat) (neigh : Addr)
    (iparNeigh : Nat) (mem : Mem α) : Option (Mem α) :=
  let particle := (cell, ipar % sim.perCell)
  let other := (neigh, iparNeigh % sim.perCell)
  if sim.address other < sim.address particle then some (treat particle other mem) else some mem

/-- The loop over the neighbour cells of one particle. -/
def forNeighbours (treat : Slot → Slot → Mem α → Mem α) (neighCells : List Nat) (cell : Addr)
    (ipar : Nat) (mem : Mem α) : Option (Mem α) :=
  neighCells.foldlM (fun mem indexNeigh =>
    sim.forCell (sim.treatPair treat cell ipar) indexNeigh mem) mem

/-- The loops over the particles of one cell and their neighbours. -/
def forPairsOf (treat : Slot → Slot → Mem α → Mem α) (c : Coord) (mem : Mem α) :
    Option (Mem α) :=
  let index := sim.index c
  let np := sim.cnumPars index
  if np = 0 then some mem
  else sim.forCell (sim.forNeighbours treat (sim.initNeighCellList c.ix c.iy c.iz)) index mem

/-- The nest of loops that the two phases share, over all grids. -/
def forPairs (treat : Slot → Slot → Mem α → Mem α) (mem : Mem α) : Option (Mem α) :=
  sim.grids.foldlM (fun mem grid =>
    grid.cells.foldlM (fun mem c => sim.forPairsOf treat c mem) mem) mem

/-- `ComputeDensitiesMT`, applied for all thread ids. -/
def computeDensitiesMT (k : Smoothing α) (mem : Mem α) : Option (Mem α) :=
  sim.forPairs k.treatDensity mem

/-- `ComputeForcesMT`, applied for all thread ids. -/
def computeForcesMT (k : Smoothing α) (mem : Mem α) : Option (Mem α) :=
  sim.forPairs k.treatForce mem

/-- Two cells are the same or touch in a face, an edge or a corner. -/
def Near (cell other : Coord) : Prop :=
  (cell.ix ≤ other.ix + 1 ∧ other.ix ≤ cell.ix + 1) ∧
    (cell.iy ≤ other.iy + 1 ∧ other.iy ≤ cell.iy + 1) ∧
    (cell.iz ≤ other.iz + 1 ∧ other.iz ≤ cell.iz + 1)

instance (cell other : Coord) : Decidable (Near cell other) :=
  inferInstanceAs (Decidable ((_ ∧ _) ∧ (_ ∧ _) ∧ (_ ∧ _)))

/-- Two cells are near to each other. -/
theorem near_comm {cell other : Coord} : Near cell other ↔ Near other cell := by
  unfold Near
  omega

/-- The cell at a step from another, when `InitNeighCellList` takes it. -/
def around (cell : Coord) (di dj dk : Int) : List Coord :=
  let ii : Int := cell.ix + di
  let jj : Int := cell.iy + dj
  let kk : Int := cell.iz + dk
  let other : Coord := ⟨ii.toNat, jj.toNat, kk.toNat⟩
  if (ii ≥ 0 ∧ jj ≥ 0 ∧ kk ≥ 0) ∧ sim.Inside other ∧ sim.index other < sim.index cell ∧
      sim.cnumPars (sim.index other) ≠ 0 then [other]
  else []

/-- The cells of `InitNeighCellList` by their coordinates. -/
def neighCoords (cell : Coord) : List Coord :=
  cell :: offsets.flatMap fun di => offsets.flatMap fun dj => offsets.flatMap fun dk =>
    sim.around cell di dj dk

/-- The cell at an offset, where it comes before the cell and has particles. -/
theorem mem_around {cell other : Coord} {di dj dk : Int} :
    other ∈ sim.around cell di dj dk ↔
      ((other.ix : Int) - cell.ix = di ∧ (other.iy : Int) - cell.iy = dj ∧
        (other.iz : Int) - cell.iz = dk) ∧
      sim.Inside other ∧ sim.index other < sim.index cell ∧
        sim.cnumPars (sim.index other) ≠ 0 := by
  obtain ⟨ix, iy, iz⟩ := other
  unfold around
  dsimp only
  constructor
  · intro member
    split at member
    · rename_i passes
      obtain ⟨lower, taken⟩ := passes
      rw [List.mem_singleton] at member
      rw [← member] at taken
      rw [Coord.mk.injEq] at member
      exact ⟨by omega, taken⟩
    · exact absurd member List.not_mem_nil
  · intro ⟨⟨stepX, stepY, stepZ⟩, taken⟩
    have same : (⟨((cell.ix : Int) + di).toNat, ((cell.iy : Int) + dj).toNat,
        ((cell.iz : Int) + dk).toNat⟩ : Coord) = ⟨ix, iy, iz⟩ := by
      rw [Coord.mk.injEq]
      omega
    rw [same, if_pos ⟨by omega, taken⟩]
    exact List.mem_singleton_self _

/-- The list of neighbor cells, by their coordinates. -/
theorem initNeighCellList_eq (cell : Coord) :
    sim.initNeighCellList cell.ix cell.iy cell.iz = (sim.neighCoords cell).map sim.index := by
  have mine : (cell.iz * sim.ny + cell.iy) * sim.nx + cell.ix = sim.index cell := rfl
  simp only [initNeighCellList, neighCoords, List.map_cons, List.map_flatMap, mine]
  congr 1
  apply List.flatMap_congr
  intro di _
  apply List.flatMap_congr
  intro dj _
  apply List.flatMap_congr
  intro dk _
  unfold around
  generalize (cell.ix : Int) + di = ii
  generalize (cell.iy : Int) + dj = jj
  generalize (cell.iz : Int) + dk = kk
  by_cases lower : ii ≥ 0 ∧ jj ≥ 0 ∧ kk ≥ 0
  · obtain ⟨i, rfl⟩ := Int.eq_ofNat_of_zero_le lower.1
    obtain ⟨j, rfl⟩ := Int.eq_ofNat_of_zero_le lower.2.1
    obtain ⟨l, rfl⟩ := Int.eq_ofNat_of_zero_le lower.2.2
    have index : ((l : Int) * sim.ny + j) * sim.nx + i = sim.index ⟨i, j, l⟩ := by
      simp [Sim.index]
    have inRange : ((i : Int) ≥ 0 ∧ (i : Int) < sim.nx ∧ (j : Int) ≥ 0 ∧ (j : Int) < sim.ny ∧
        (l : Int) ≥ 0 ∧ (l : Int) < sim.nz) ↔ sim.Inside ⟨i, j, l⟩ := by
      simp only [Inside]
      omega
    simp only [inRange]
    simp only [index, Int.toNat_natCast, Int.ofNat_lt]
    by_cases inside : sim.Inside ⟨i, j, l⟩ <;>
      by_cases taken : sim.index ⟨i, j, l⟩ < sim.index cell ∧
        sim.cnumPars (sim.index ⟨i, j, l⟩) ≠ 0 <;>
      simp [inside, taken]
  · rw [if_neg (fun h => lower ⟨h.1, h.2.2.1, h.2.2.2.2.1⟩), if_neg (fun h => lower h.1)]
    rfl

/-- The cell itself, and the cells near to it that come before it and have particles. -/
theorem mem_neighCoords {cell other : Coord} :
    other ∈ sim.neighCoords cell ↔ other = cell ∨ sim.Inside other ∧ Near cell other ∧
      sim.index other < sim.index cell ∧ sim.cnumPars (sim.index other) ≠ 0 := by
  simp only [neighCoords, List.mem_cons, List.mem_flatMap, mem_around]
  apply or_congr_right
  have steps : ∀ step : Int, step ∈ offsets ↔ step = -1 ∨ step = 0 ∨ step = 1 := by
    simp [offsets]
  constructor
  · intro ⟨di, stepX, dj, stepY, dk, stepZ, ⟨moveX, moveY, moveZ⟩, inside, taken⟩
    rw [steps] at stepX stepY stepZ
    refine ⟨inside, ?_, taken⟩
    unfold Near
    omega
  · intro ⟨inside, near, taken⟩
    unfold Near at near
    refine ⟨_, (steps _).mpr ?_, _, (steps _).mpr ?_, _, (steps _).mpr ?_, ⟨rfl, rfl, rfl⟩,
      inside, taken⟩ <;> omega

/-- `InitNeighCellList` lists no cell twice. -/
theorem neighCoords_nodup (cell : Coord) : (sim.neighCoords cell).Nodup := by
  have steps : offsets.Nodup := by decide
  rw [neighCoords, List.nodup_cons]
  constructor
  · simp only [List.mem_flatMap, mem_around]
    intro ⟨di, _, dj, _, dk, _, _, _, below, _⟩
    exact lt_irrefl _ below
  · -- The step along each axis is the difference of the coordinates.
    apply nodup_flatMap_of_tag (fun other => (other.ix : Int) - cell.ix) steps
    · intro di _
      apply nodup_flatMap_of_tag (fun other => (other.iy : Int) - cell.iy) steps
      · intro dj _
        apply nodup_flatMap_of_tag (fun other => (other.iz : Int) - cell.iz) steps
        · intro dk _
          unfold around
          dsimp only
          split
          · exact List.nodup_singleton _
          · exact List.nodup_nil
        · intro dk _ other member
          exact (sim.mem_around.mp member).1.2.2
      · intro dj _ other member
        obtain ⟨dk, _, member⟩ := List.mem_flatMap.mp member
        exact (sim.mem_around.mp member).1.2.1
    · intro di _ other member
      obtain ⟨dj, _, member⟩ := List.mem_flatMap.mp member
      obtain ⟨dk, _, member⟩ := List.mem_flatMap.mp member
      exact (sim.mem_around.mp member).1.1

/-- The particles of a cell. -/
def particlesOf (cell : Coord) : List ParticleId :=
  (List.range (sim.cnumPars (sim.index cell))).map (cell, ·)

/-- The particles of the domain. -/
def particles : Finset ParticleId := (sim.domain.cells.flatMap sim.particlesOf).toFinset

/-- The pairs that the loops meet, in loop order. -/
def candidates : List (ParticleId × ParticleId) :=
  (sim.grids.flatMap Grid.cells).flatMap fun cell => (sim.particlesOf cell).flatMap fun particle =>
    (sim.neighCoords particle.1).flatMap fun other => (sim.particlesOf other).map (particle, ·)

variable {sim}

/-- The particles of a cell. -/
theorem mem_particlesOf {cell : Coord} {particle : ParticleId} :
    particle ∈ sim.particlesOf cell ↔
      particle.1 = cell ∧ particle.2 < sim.cnumPars (sim.index particle.1) := by
  obtain ⟨own, j⟩ := particle
  simp only [particlesOf, List.mem_map, List.mem_range, Prod.mk.injEq]
  constructor
  · intro ⟨_, bound, same, number⟩
    rw [← same, ← number]
    exact ⟨rfl, bound⟩
  · intro ⟨same, bound⟩
    exact ⟨j, same ▸ bound, same.symm, rfl⟩

/-- The particles of the domain. -/
theorem mem_particles {particle : ParticleId} :
    particle ∈ sim.particles ↔ sim.Holds particle := by
  simp only [particles, List.mem_toFinset, List.mem_flatMap, mem_domain, mem_particlesOf]
  constructor
  · intro ⟨cell, inside, own, bound⟩
    exact ⟨own ▸ inside, bound⟩
  · intro holds
    exact ⟨particle.1, holds.1, rfl, holds.2⟩

/-- The loops meet the pairs of a cell with itself and with the neighbours of smaller index. -/
theorem mem_candidates (partitioned : sim.Partitioned) {particle other : ParticleId} :
    (particle, other) ∈ sim.candidates ↔ sim.Holds particle ∧ sim.Holds other ∧
      (other.1 = particle.1 ∨
        Near particle.1 other.1 ∧ sim.index other.1 < sim.index particle.1) := by
  have inDomain : ∀ cell, (∃ grid ∈ sim.grids, cell ∈ grid.cells) ↔ sim.Inside cell := by
    intro cell
    rw [← partitioned.mem, List.mem_flatMap]
  simp only [candidates, List.mem_flatMap, List.mem_map, Prod.mk.injEq, inDomain]
  constructor
  · intro ⟨cell, inside, first, firstIn, neighbour, listed, second, secondIn, same, same'⟩
    rw [mem_particlesOf] at firstIn secondIn
    rw [same] at firstIn
    rw [same'] at secondIn
    rw [← firstIn.1] at inside
    rw [same, ← secondIn.1] at listed
    rcases (sim.mem_neighCoords).mp listed with own | ⟨inside', near, below, _⟩
    · exact ⟨⟨inside, firstIn.2⟩, ⟨own ▸ inside, secondIn.2⟩, Or.inl own⟩
    · exact ⟨⟨inside, firstIn.2⟩, ⟨inside', secondIn.2⟩, Or.inr ⟨near, below⟩⟩
  · intro ⟨holds, holds', reach⟩
    refine ⟨particle.1, holds.1, particle, mem_particlesOf.mpr ⟨rfl, holds.2⟩,
      other.1, ?_, other, mem_particlesOf.mpr ⟨rfl, holds'.2⟩, rfl, rfl⟩
    rw [mem_neighCoords]
    apply reach.imp_right
    intro ⟨near, below⟩
    have used := holds'.2
    exact ⟨holds'.1, near, below, by omega⟩

/-- The loops meet no pair twice. -/
theorem candidates_nodup (partitioned : sim.Partitioned) : sim.candidates.Nodup := by
  have own : ∀ cell, (sim.particlesOf cell).Nodup := fun cell =>
    List.nodup_range.map fun _ _ same => congrArg Prod.snd same
  apply nodup_flatMap_of_tag (fun pair => pair.1.1) partitioned.nodup
  · intro cell _
    apply nodup_flatMap_of_tag Prod.fst (own cell)
    · intro particle _
      apply nodup_flatMap_of_tag (fun pair => pair.2.1) (sim.neighCoords_nodup particle.1)
      · intro other _
        exact (own other).map fun _ _ same => congrArg Prod.snd same
      · intro other _ pair member
        obtain ⟨second, inside, rfl⟩ := List.mem_map.mp member
        exact (mem_particlesOf.mp inside).1
    · intro particle _ pair member
      obtain ⟨other, _, inner⟩ := List.mem_flatMap.mp member
      obtain ⟨second, _, rfl⟩ := List.mem_map.mp inner
      rfl
  · intro cell _ pair member
    obtain ⟨particle, inside, inner⟩ := List.mem_flatMap.mp member
    obtain ⟨other, _, last⟩ := List.mem_flatMap.mp inner
    obtain ⟨second, _, rfl⟩ := List.mem_map.mp last
    exact (mem_particlesOf.mp inside).1

end Sim

namespace Chains

variable {sim : Sim} {mem : Mem α} (chains : Chains sim mem.next)

/-- The pairs that pass the address test, in loop order. -/
def ordered : List (ParticleId × ParticleId) :=
  sim.candidates.filter fun pair =>
    sim.address (chains.slot pair.2) < sim.address (chains.slot pair.1)

/-- The pairs that the two phases treat, in loop order. -/
def treated (k : Smoothing α) : List (ParticleId × ParticleId) :=
  chains.ordered.filter fun pair =>
    k.Close (mem.p (chains.slot pair.1)) (mem.p (chains.slot pair.2))

section Loops

variable (treat : Slot → Slot → Mem α → Mem α)

/-- What the address test and the treatment make of one pair. -/
def pairStep (particle : ParticleId) (mem : Mem α) (other : ParticleId) : Mem α :=
  if sim.address (chains.slot other) < sim.address (chains.slot particle) then
    treat (chains.slot particle) (chains.slot other) mem
  else mem

/-- What the walk over a neighbour cell makes of the pairs of one particle. -/
def cellStep (particle : ParticleId) (mem : Mem α) (other : Coord) : Mem α :=
  (sim.particlesOf other).foldl (chains.pairStep treat particle) mem

/-- What the loop over the neighbour cells makes of the pairs of one particle. -/
def particleStep (mem : Mem α) (particle : ParticleId) : Mem α :=
  (sim.neighCoords particle.1).foldl (chains.cellStep treat particle) mem

omit [Field α] [LinearOrder α]

variable {treat} (keeps : ∀ cell neigh mem, (treat cell neigh mem).next = mem.next)
include keeps

/-- The treatment of a pair keeps the links. -/
theorem pairStep_next (particle : ParticleId) (mem : Mem α) (other : ParticleId) :
    (chains.pairStep treat particle mem other).next = mem.next := by
  unfold pairStep
  split
  · exact keeps _ _ _
  · rfl

/-- The treatment of a cell keeps the links. -/
theorem cellStep_next (particle : ParticleId) (mem : Mem α) (other : Coord) :
    (chains.cellStep treat particle mem other).next = mem.next :=
  foldl_keeps (fun after => after.next = mem.next) _
    (fun after same second _ => (chains.pairStep_next keeps particle after second).trans same)
    mem rfl

/-- The treatment of a particle keeps the links. -/
theorem particleStep_next (mem : Mem α) (particle : ParticleId) :
    (chains.particleStep treat mem particle).next = mem.next :=
  foldl_keeps (fun after => after.next = mem.next) _
    (fun after same other _ => (chains.cellStep_next keeps particle after other).trans same)
    mem rfl

/-- The walk over one neighbour cell of a particle. -/
theorem forCell_treatPair (particle : ParticleId) {other : Coord} (inside : sim.Inside other)
    (after : Mem α) (links : after.next = mem.next) :
    sim.forCell (sim.treatPair treat (chains.slot particle).1 particle.2) (sim.index other) after =
      some (chains.cellStep treat particle after other) := by
  unfold cellStep Sim.particlesOf
  rw [List.foldl_map]
  apply chains.forCell_eq_foldl inside _ _ after links
  · intro j before _
    unfold Sim.treatPair pairStep
    exact (apply_ite some _ _ _).symm
  · intro before j
    exact chains.pairStep_next keeps particle before (other, j)

/-- The loop over the neighbour cells of a particle. -/
theorem forNeighbours_eq (particle : ParticleId) (inside : sim.Inside particle.1) (after : Mem α)
    (links : after.next = mem.next) :
    sim.forNeighbours treat ((sim.neighCoords particle.1).map sim.index) (chains.slot particle).1
        particle.2 after = some (chains.particleStep treat after particle) := by
  unfold Sim.forNeighbours particleStep
  rw [List.foldlM_map]
  apply foldlM_eq_foldl (fun mem' => mem'.next = mem.next) _ _ _ after links
  · intro before same other listed
    apply chains.forCell_treatPair keeps particle _ before same
    rcases sim.mem_neighCoords.mp listed with own | ⟨inside', _⟩
    · exact own ▸ inside
    · exact inside'
  · intro before same other _
    exact (chains.cellStep_next keeps particle before other).trans same

/-- The loops over the particles of one cell and their neighbours. -/
theorem forPairsOf_eq {cell : Coord} (inside : sim.Inside cell) (after : Mem α)
    (links : after.next = mem.next) :
    sim.forPairsOf treat cell after =
      some ((sim.particlesOf cell).foldl (chains.particleStep treat) after) := by
  unfold Sim.forPairsOf Sim.particlesOf
  rw [sim.initNeighCellList_eq, List.foldl_map]
  by_cases empty : sim.cnumPars (sim.index cell) = 0
  · simp [empty]
  · simp only [empty, if_false]
    apply chains.forCell_eq_foldl inside _ _ after links
    · intro j before same
      exact chains.forNeighbours_eq keeps (cell, j) inside before same
    · intro before j
      exact chains.particleStep_next keeps before (cell, j)

/-- The nest of loops treats the pairs that pass the address test and follows no null
pointer. -/
theorem forPairs_eq (partitioned : sim.Partitioned) :
    sim.forPairs treat mem = some (chains.ordered.foldl
      (fun mem pair => treat (chains.slot pair.1) (chains.slot pair.2) mem) mem) := by
  have runs : sim.forPairs treat mem = some ((sim.grids.flatMap Grid.cells).foldl
      (fun mem cell => (sim.particlesOf cell).foldl (chains.particleStep treat) mem) mem) := by
    unfold Sim.forPairs
    rw [← foldlM_flatMap]
    apply foldlM_eq_foldl (fun after => after.next = mem.next) _ _ _ mem rfl
    · intro after same cell listed
      exact chains.forPairsOf_eq keeps (partitioned.mem.mp listed) after same
    · intro after same cell _
      exact foldl_keeps (fun later => later.next = mem.next) _
        (fun later same particle _ =>
          (chains.particleStep_next keeps later particle).trans same) after same
  rw [runs, ordered, List.foldl_filter, Sim.candidates]
  simp only [List.foldl_flatMap, List.foldl_map, decide_eq_true_eq]
  rfl

end Loops

/-- The treated pairs are those that the loops meet, that pass the address test and that are
close. -/
theorem mem_treated (partitioned : sim.Partitioned) (k : Smoothing α)
    {particle other : ParticleId} :
    (particle, other) ∈ chains.treated k ↔
      (sim.Holds particle ∧ sim.Holds other ∧ (other.1 = particle.1 ∨
        Sim.Near particle.1 other.1 ∧ sim.index other.1 < sim.index particle.1)) ∧
      sim.address (chains.slot other) < sim.address (chains.slot particle) ∧
      k.Close (mem.p (chains.slot particle)) (mem.p (chains.slot other)) := by
  rw [treated, ordered, List.mem_filter, List.mem_filter, Sim.mem_candidates partitioned]
  simp only [decide_eq_true_eq, and_assoc]

/-- A pair in a given order is treated at most once. -/
theorem count_treated (partitioned : sim.Partitioned) (k : Smoothing α)
    (pair : ParticleId × ParticleId) :
    (chains.treated k).count pair = if pair ∈ chains.treated k then 1 else 0 := by
  have nodup : (chains.treated k).Nodup :=
    ((Sim.candidates_nodup partitioned).filter _).filter _
  by_cases member : pair ∈ chains.treated k
  · rw [if_pos member, List.count_eq_one_of_mem nodup member]
  · rw [if_neg member, List.count_eq_zero_of_not_mem member]

/-- Two particles form a pair that the phases have to treat. -/
def Pair (k : Smoothing α) (particle other : ParticleId) : Prop :=
  (sim.Holds particle ∧ sim.Holds other ∧ particle ≠ other) ∧ Sim.Near particle.1 other.1 ∧
    k.Close (mem.p (chains.slot particle)) (mem.p (chains.slot other))

instance (k : Smoothing α) (particle other : ParticleId) :
    Decidable (chains.Pair k particle other) := by
  unfold Pair Sim.Holds
  infer_instance

/-- How often the phases treat a pair, in one order or the other. -/
def timesTreated (k : Smoothing α) (particle other : ParticleId) : Nat :=
  (chains.treated k).count (particle, other) + (chains.treated k).count (other, particle)

/-- Particles that form no pair are not treated. -/
theorem timesTreated_of_not_pair (partitioned : sim.Partitioned) (k : Smoothing α)
    {particle other : ParticleId} (apart : ¬chains.Pair k particle other) :
    chains.timesTreated k particle other = 0 := by
  have first : (particle, other) ∉ chains.treated k := by
    rw [mem_treated chains partitioned]
    intro ⟨⟨holds, holds', reach⟩, below, close⟩
    apply apart
    refine ⟨⟨holds, holds', ?_⟩, ?_, close⟩
    · intro same
      rw [same] at below
      exact lt_irrefl _ below
    · rcases reach with own | ⟨near, _⟩
      · unfold Sim.Near
        rw [own]
        omega
      · exact near
  have second : (other, particle) ∉ chains.treated k := by
    rw [mem_treated chains partitioned]
    intro ⟨⟨holds', holds, reach⟩, below, close⟩
    apply apart
    refine ⟨⟨holds, holds', ?_⟩, ?_, (k.close_comm _ _).mp close⟩
    · intro same
      rw [same] at below
      exact lt_irrefl _ below
    · rcases reach with own | ⟨near, _⟩
      · unfold Sim.Near
        rw [own]
        omega
      · exact Sim.near_comm.mp near
  rw [timesTreated, List.count_eq_zero_of_not_mem first, List.count_eq_zero_of_not_mem second]

/-- Two particles of one cell are treated once. -/
theorem timesTreated_same_cell (partitioned : sim.Partitioned) (k : Smoothing α)
    {particle other : ParticleId} (pair : chains.Pair k particle other)
    (same : particle.1 = other.1) : chains.timesTreated k particle other = 1 := by
  obtain ⟨⟨holds, holds', distinct⟩, _, close⟩ := pair
  have close' := (k.close_comm _ _).mp close
  have addresses : sim.address (chains.slot particle) ≠ sim.address (chains.slot other) :=
    fun equal => distinct (chains.address_injective holds holds' equal)
  rw [timesTreated, count_treated chains partitioned, count_treated chains partitioned]
  simp only [mem_treated chains partitioned, holds, holds', same, close, close', true_and,
    true_or, and_true]
  split_ifs <;> omega

/-- Two particles of different cells are treated when the particle of the cell with the
smaller index lies at the lower address, and then once. -/
theorem timesTreated_below (partitioned : sim.Partitioned) (k : Smoothing α)
    {particle other : ParticleId} (pair : chains.Pair k particle other)
    (below : sim.index other.1 < sim.index particle.1) :
    chains.timesTreated k particle other =
      if sim.address (chains.slot other) < sim.address (chains.slot particle) then 1 else 0 := by
  obtain ⟨⟨holds, holds', _⟩, near, close⟩ := pair
  have apart : other.1 ≠ particle.1 := by
    intro same
    rw [same] at below
    exact lt_irrefl _ below
  have above : ¬sim.index particle.1 < sim.index other.1 := by omega
  rw [timesTreated, count_treated chains partitioned, count_treated chains partitioned]
  simp only [mem_treated chains partitioned, holds, holds', near, close, below, above, apart,
    apart.symm, true_and, and_true, and_false, or_true, or_false, false_and, if_false,
    Nat.add_zero]

/-- In every close pair of two cells the particle of the cell with the smaller index lies at
the lower address. -/
def AddressOrder (k : Smoothing α) : Prop :=
  ∀ particle other, chains.Pair k particle other → sim.index other.1 < sim.index particle.1 →
    sim.address (chains.slot other) < sim.address (chains.slot particle)

/-- Every pair is treated once exactly when, in every pair of two cells, the particle of the
cell with the smaller index lies at the lower address. -/
theorem timesTreated_eq_one_iff (partitioned : sim.Partitioned) (k : Smoothing α) :
    (∀ particle other, chains.Pair k particle other →
      chains.timesTreated k particle other = 1) ↔ chains.AddressOrder k := by
  constructor
  · intro once particle other pair below
    have times := once particle other pair
    rw [chains.timesTreated_below partitioned k pair below] at times
    by_contra above
    rw [if_neg above] at times
    exact absurd times (by decide)
  · intro order particle other pair
    rcases Nat.lt_trichotomy (sim.index particle.1) (sim.index other.1) with below | same | below
    · have reverse : chains.Pair k other particle :=
        ⟨⟨pair.1.2.1, pair.1.1, pair.1.2.2.symm⟩, Sim.near_comm.mp pair.2.1,
          (k.close_comm _ _).mp pair.2.2⟩
      have times := chains.timesTreated_below partitioned k reverse below
      rw [if_pos (order other particle reverse below)] at times
      unfold timesTreated at times ⊢
      omega
    · exact chains.timesTreated_same_cell partitioned k pair
        (Sim.index_injective pair.1.1.1 pair.1.2.1.1 same)
    · rw [chains.timesTreated_below partitioned k pair below,
        if_pos (order particle other pair below)]

/-- A phase that adds an amount to the first particle of a treated pair and another to the
second gives a particle the amounts of its partners, each as often as the pair is treated. -/
theorem foldl_treated {μ : Type} [AddCommMonoid μ] (partitioned : sim.Partitioned)
    (k : Smoothing α) (table : Slot → μ) (amount : Slot → Slot → μ) {particle : ParticleId}
    (holds : sim.Holds particle) :
    (chains.treated k).foldl (fun table pair =>
        addAt (addAt table (chains.slot pair.1) (amount (chains.slot pair.1) (chains.slot pair.2)))
          (chains.slot pair.2) (amount (chains.slot pair.2) (chains.slot pair.1)))
        table (chains.slot particle) =
      table (chains.slot particle) + ∑ other ∈ sim.particles,
        chains.timesTreated k particle other •
          amount (chains.slot particle) (chains.slot other) := by
  have inside : ∀ pair ∈ chains.treated k, sim.Holds pair.1 ∧ sim.Holds pair.2 := by
    intro pair member
    have met := (chains.mem_treated partitioned k).mp member
    exact ⟨met.1.1, met.1.2.1⟩
  have slots : ∀ other, sim.Holds other →
      (chains.slot other = chains.slot particle ↔ other = particle) := by
    intro other holds'
    exact ⟨chains.slot_injective holds' holds, congrArg chains.slot⟩
  rw [foldl_addAt_pair]
  congr 1
  unfold timesTreated
  rw [← sum_pairs_eq (chains.treated k) sim.particles _ particle
    (fun one other => amount (chains.slot one) (chains.slot other))]
  · congr 1
    apply List.map_congr_left
    intro pair member
    obtain ⟨first, second⟩ := inside pair member
    simp only [slots _ first, slots _ second]
  · intro pair member
    rw [Sim.mem_particles, Sim.mem_particles]
    exact inside pair member

/-- The densities that `ComputeDensitiesMT` leaves. -/
theorem computeDensitiesMT_eq (partitioned : sim.Partitioned) (k : Smoothing α) :
    ∃ density, sim.computeDensitiesMT k mem = some { mem with density := density } ∧
      ∀ particle, sim.Holds particle → density (chains.slot particle) =
        mem.density (chains.slot particle) + ∑ other ∈ sim.particles,
          chains.timesTreated k particle other •
            k.densityTerm mem (chains.slot particle) (chains.slot other) := by
  refine ⟨_, ?_, fun particle holds =>
    chains.foldl_treated partitioned k mem.density (k.densityTerm mem) holds⟩
  have keeps : ∀ cell neigh mem, (k.treatDensity cell neigh mem).next = mem.next := by
    intro cell neigh before
    unfold Smoothing.treatDensity
    dsimp only
    split <;> rfl
  unfold Sim.computeDensitiesMT
  rw [chains.forPairs_eq keeps partitioned, treated, List.foldl_filter]
  congr 1
  refine List.foldl_hom (fun density => { mem with density := density }) fun density pair => ?_
  by_cases close : k.Close (mem.p (chains.slot pair.1)) (mem.p (chains.slot pair.2))
  · rw [if_pos (decide_eq_true close), k.densityTerm_comm mem (chains.slot pair.2)]
    exact if_pos close
  · rw [if_neg (by simpa using close)]
    exact if_neg close

/-- The accelerations that `ComputeForcesMT` leaves. -/
theorem computeForcesMT_eq (partitioned : sim.Partitioned) (k : Smoothing α) :
    ∃ a, sim.computeForcesMT k mem = some { mem with a := a } ∧
      ∀ particle, sim.Holds particle → a (chains.slot particle) =
        mem.a (chains.slot particle) + ∑ other ∈ sim.particles,
          chains.timesTreated k particle other •
            k.force mem (chains.slot particle) (chains.slot other) := by
  refine ⟨_, ?_, fun particle holds =>
    chains.foldl_treated partitioned k mem.a (k.force mem) holds⟩
  have keeps : ∀ cell neigh mem, (k.treatForce cell neigh mem).next = mem.next := by
    intro cell neigh before
    unfold Smoothing.treatForce
    dsimp only
    split <;> rfl
  unfold Sim.computeForcesMT
  rw [chains.forPairs_eq keeps partitioned, treated, List.foldl_filter]
  congr 1
  refine List.foldl_hom (fun a => { mem with a := a }) fun a pair => ?_
  by_cases close : k.Close (mem.p (chains.slot pair.1)) (mem.p (chains.slot pair.2))
  · rw [if_pos (decide_eq_true close), k.force_antisymm mem (chains.slot pair.2),
      k.treatForce_eq]
    exact if_pos close
  · rw [if_neg (by simpa using close), k.treatForce_eq]
    exact if_neg close

/-- Where every pair is treated once, a particle gets the amounts of its partners. -/
theorem sum_timesTreated {μ : Type} [AddCommMonoid μ] (partitioned : sim.Partitioned)
    (k : Smoothing α)
    (once : ∀ particle other, chains.Pair k particle other →
      chains.timesTreated k particle other = 1)
    (particle : ParticleId) (amount : ParticleId → μ) :
    ∑ other ∈ sim.particles, chains.timesTreated k particle other • amount other =
      ∑ other ∈ sim.particles with chains.Pair k particle other, amount other := by
  rw [Finset.sum_filter]
  apply Finset.sum_congr rfl
  intro other _
  by_cases pair : chains.Pair k particle other
  · rw [once particle other pair, if_pos pair, one_nsmul]
  · rw [chains.timesTreated_of_not_pair partitioned k pair, if_neg pair, zero_nsmul]

/-- The densities and accelerations after the phases: a particle has got the terms of its
partners, each as often as the pair was treated. -/
def Collected (k : Smoothing α) (density : Slot → α) (a : Slot → Vec3 α) : Prop :=
  ∀ particle, sim.Holds particle →
    density (chains.slot particle) = mem.density (chains.slot particle) +
        ∑ other ∈ sim.particles, chains.timesTreated k particle other •
          k.densityTerm mem (chains.slot particle) (chains.slot other) ∧
      a (chains.slot particle) = mem.a (chains.slot particle) +
        ∑ other ∈ sim.particles, chains.timesTreated k particle other •
          k.force mem (chains.slot particle) (chains.slot other)

/-- Every pair is treated once, and the phases leave the sums over the partners, in which the
addresses of the blocks do not occur. -/
def Complete (k : Smoothing α) (density : Slot → α) (a : Slot → Vec3 α) : Prop :=
  (∀ particle other, chains.Pair k particle other →
      chains.timesTreated k particle other = 1) ∧
    ∀ particle, sim.Holds particle →
      density (chains.slot particle) = mem.density (chains.slot particle) +
          ∑ other ∈ sim.particles with chains.Pair k particle other,
            k.densityTerm mem (chains.slot particle) (chains.slot other) ∧
        a (chains.slot particle) = mem.a (chains.slot particle) +
          ∑ other ∈ sim.particles with chains.Pair k particle other,
            k.force mem (chains.slot particle) (chains.slot other)

/-- The two phases follow no null pointer, add one density term and opposite force terms to
the two particles of a pair, and add them as often as the pair is treated. They are complete
exactly when the particles of every close pair of two cells lie in the order of their cells. -/
theorem pairs_treated_once_iff (partitioned : sim.Partitioned) (k : Smoothing α) :
    ∃ density a, sim.computeDensitiesMT k mem = some { mem with density := density } ∧
      sim.computeForcesMT k mem = some { mem with a := a } ∧
      (∀ s s', k.densityTerm mem s s' = k.densityTerm mem s' s ∧
        k.force mem s s' = -k.force mem s' s) ∧
      chains.Collected k density a ∧
      (chains.Complete k density a ↔ chains.AddressOrder k) := by
  obtain ⟨density, ranDensities, densities⟩ := chains.computeDensitiesMT_eq partitioned k
  obtain ⟨a, ranForces, forces⟩ := chains.computeForcesMT_eq partitioned k
  refine ⟨density, a, ranDensities, ranForces,
    fun s s' => ⟨k.densityTerm_comm mem s s', k.force_antisymm mem s s'⟩,
    fun particle holds => ⟨densities particle holds, forces particle holds⟩, ?_⟩
  constructor
  · intro ⟨once, _⟩
    exact (chains.timesTreated_eq_one_iff partitioned k).mp once
  · intro order
    have once := (chains.timesTreated_eq_one_iff partitioned k).mpr order
    refine ⟨once, fun particle holds => ⟨?_, ?_⟩⟩
    · rw [densities particle holds, chains.sum_timesTreated partitioned k once]
    · rw [forces particle holds, chains.sum_timesTreated partitioned k once]

end Chains

section Sample

/-- Sixteen is positive. -/
theorem sixteen_pos : 0 < 16 := by decide

/-- Twelve is positive. -/
theorem twelve_pos : 0 < 12 := by decide

/-- Sixteen particles of twelve bytes fit into a block. -/
theorem sixteen_fit : 0 + 16 * 12 ≤ 192 := by decide

/-- Two cells with seventeen particles in the first and one in the second. -/
def overflowSim : Sim where
  perCell := 16
  perCell_pos := sixteen_pos
  nx := 2
  ny := 1
  nz := 1
  nx_pos := Nat.two_pos
  ny_pos := Nat.one_pos
  nz_pos := Nat.one_pos
  cnumPars index := if index = 0 then 17 else if index = 1 then 1 else 0
  grids := [⟨0, 0, 0, 2, 1, 1⟩]
  cellsBase := 1000
  sizeofCell := 192
  offsetofP := 0
  sizeofVec3 := 12
  sizeofVec3_pos := twelve_pos
  fits := sixteen_fit

/-- The overflow block of the first cell lies behind the array `cells`. Its particle and the
one of the second cell are in one place, far from the others. -/
def overflowMem : Mem ℚ where
  p slot := if slot.1 = 1000 then ⟨0, 0, 0⟩ else ⟨10, 0, 0⟩
  hv _ := ⟨0, 0, 0⟩
  v _ := ⟨0, 0, 0⟩
  a _ := ⟨0, 0, 0⟩
  density _ := 1
  next block := if block = 1000 then some 5000 else none

/-- Interactions within distance one. -/
def unitSmoothing : Smoothing ℚ where
  h := 1
  pressureCoeff := 1
  viscosityCoeff := 1
  doubleRestDensity := 1
  sqrt := id

/-- The sample has two cells. -/
theorem overflowSim_cells {cell : Coord} (inside : overflowSim.Inside cell) :
    cell = ⟨0, 0, 0⟩ ∨ cell = ⟨1, 0, 0⟩ := by
  obtain ⟨ix, iy, iz⟩ := cell
  obtain ⟨boundX, boundY, boundZ⟩ := inside
  simp only [overflowSim] at boundX boundY boundZ
  simp only [Coord.mk.injEq]
  omega

/-- The chains of the sample. -/
def overflowChains : Chains overflowSim overflowMem.next where
  block cell t := if t = 0 then overflowSim.cellAt (overflowSim.index cell) else 5000
  head _ := rfl
  linked cell inside t more := by
    rcases overflowSim_cells inside with rfl | rfl
    · have first : t = 0 := by
        change (t + 1) * 16 < 17 at more
        omega
      rw [first]
      decide
    · change (t + 1) * 16 < 1 at more
      omega
  apart cell other inside inside' t t' used used' different := by
    have count : overflowSim.cnumPars (overflowSim.index ⟨0, 0, 0⟩) = 17 := by decide
    have count' : overflowSim.cnumPars (overflowSim.index ⟨1, 0, 0⟩) = 1 := by decide
    have address : overflowSim.cellAt (overflowSim.index ⟨0, 0, 0⟩) = 1000 := by decide
    have address' : overflowSim.cellAt (overflowSim.index ⟨1, 0, 0⟩) = 1192 := by decide
    have size : overflowSim.sizeofCell = 192 := rfl
    have slots : overflowSim.perCell = 16 := rfl
    rcases overflowSim_cells inside with rfl | rfl <;>
      rcases overflowSim_cells inside' with rfl | rfl <;>
      simp only [count, count', slots] at used used' <;>
      simp only [address, address', size, ne_eq, Prod.mk.injEq, true_and, Coord.mk.injEq] at * <;>
      split_ifs <;> omega

/-- A cell with an overflow block. -/
theorem pairs_treated_once_iff_sample :
    overflowSim.Partitioned ∧
      ∃ density a, overflowSim.computeDensitiesMT unitSmoothing overflowMem =
          some { overflowMem with density := density } ∧
        overflowSim.computeForcesMT unitSmoothing overflowMem =
          some { overflowMem with a := a } ∧
        (∀ s s', unitSmoothing.densityTerm overflowMem s s' =
            unitSmoothing.densityTerm overflowMem s' s ∧
          unitSmoothing.force overflowMem s s' = -unitSmoothing.force overflowMem s' s) ∧
        overflowChains.Collected unitSmoothing density a ∧
        (overflowChains.Complete unitSmoothing density a ↔
          overflowChains.AddressOrder unitSmoothing) :=
  have partitioned : overflowSim.Partitioned := by decide
  ⟨partitioned, overflowChains.pairs_treated_once_iff partitioned unitSmoothing⟩

/-- The close pair of the overflow particle and the particle of the second cell is treated in
neither order: the density of the latter stays as it was. -/
theorem pairs_treated_once_fails_sample :
    overflowSim.Partitioned ∧
      (overflowSim.computeDensitiesMT unitSmoothing overflowMem).map
          (fun mem => mem.density (overflowChains.slot (⟨1, 0, 0⟩, 0))) = some 1 ∧
      ¬ ∀ particle other, overflowChains.Pair unitSmoothing particle other →
        overflowChains.timesTreated unitSmoothing particle other = 1 := by
  have partitioned : overflowSim.Partitioned := by decide
  refine ⟨partitioned, by decide +kernel, fun once => ?_⟩
  have pair : overflowChains.Pair unitSmoothing (⟨1, 0, 0⟩, 0) (⟨0, 0, 0⟩, 16) := by decide +kernel
  have times := overflowChains.timesTreated_below partitioned unitSmoothing pair (by decide)
  rw [once _ _ pair] at times
  exact absurd times (by decide)

end Sample

end P3arsec.Fluidanimate
