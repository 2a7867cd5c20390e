import P3arsec.Lib.Fold

/-!
# The particle grid of fluidanimate

The domain is a box of `nx * ny * nz` cells. The particles of a cell fill a chain of `Cell`
blocks of `PARTICLES_PER_CELL` slots: the first block is the cell's entry of the array
`cells`, every later one comes from a pool and may lie at any address. A particle is
addressed by its block and its slot. The phases of a frame walk these chains with one
pointer that moves to the next block after the last slot of the current one; the walk
faults when it follows a null pointer.

`Chains` is the shape that the grid keeps between the phases. Under it a walk is a loop
over the particles of the cell (`forCell_eq`), and a phase over the cells of all
grids is one loop over the particles of the domain.
-/

namespace P3arsec.Fluidanimate

open P3arsec.Lib

/-- A vector of the simulation. -/
@[ext] structure Vec3 (α : Type) where
  /-- First coordinate. -/
  x : α
  /-- Second coordinate. -/
  y : α
  /-- Third coordinate. -/
  z : α
  deriving DecidableEq, Repr

/-- An address of a `Cell` block. -/
abbrev Addr := Nat

/-- A slot of a block: where one particle is stored. -/
abbrev Slot := Addr × Nat

/-- The memory of the `Cell` blocks; `cell->p[i]` is the entry of `p` at `(cell, i)`. -/
structure Mem (α : Type) where
  /-- Positions. -/
  p : Slot → Vec3 α
  /-- Half-step velocities. -/
  hv : Slot → Vec3 α
  /-- Velocities. -/
  v : Slot → Vec3 α
  /-- Accelerations. -/
  a : Slot → Vec3 α
  /-- Densities. -/
  density : Slot → α
  /-- The next block of the chain, none for a null pointer. -/
  next : Addr → Option Addr

/-- One grid: the half-open box of cells that one thread owns. -/
structure Grid where
  /-- First cell on the x axis. -/
  sx : Nat
  /-- First cell on the y axis. -/
  sy : Nat
  /-- First cell on the z axis. -/
  sz : Nat
  /-- End on the x axis. -/
  ex : Nat
  /-- End on the y axis. -/
  ey : Nat
  /-- End on the z axis. -/
  ez : Nat
  deriving DecidableEq, Repr

/-- The cells of a half-open interval, in loop order. -/
def span (start stop : Nat) : List Nat := List.range' start (stop - start)

/-- The numbers of a half-open interval. -/
@[simp] theorem mem_span {start stop i : Nat} : i ∈ span start stop ↔ start ≤ i ∧ i < stop := by
  simp only [span, List.mem_range'_1]
  omega

/-- A half-open interval lists each cell once. -/
theorem span_nodup (start stop : Nat) : (span start stop).Nodup := List.nodup_range'

/-- A cell of the domain by its three coordinates. -/
structure Coord where
  /-- Position on the x axis. -/
  ix : Nat
  /-- Position on the y axis. -/
  iy : Nat
  /-- Position on the z axis. -/
  iz : Nat
  deriving DecidableEq, Repr

/-- The cells of a grid in the order of the three nested loops over `iz`, `iy` and `ix`. -/
def Grid.cells (grid : Grid) : List Coord :=
  (span grid.sz grid.ez).flatMap fun iz => (span grid.sy grid.ey).flatMap fun iy =>
    (span grid.sx grid.ex).map fun ix => ⟨ix, iy, iz⟩

/-- The simulation's data that the phases only read. The layout of a `Cell` block gives the
offset of its array `p` and the size of one entry; the array fits in the block. -/
structure Sim where
  /-- Number of particles that one block holds. -/
  perCell : Nat
  /-- A block holds at least one particle. -/
  perCell_pos : 0 < perCell
  /-- Number of cells on the x axis. -/
  nx : Nat
  /-- Number of cells on the y axis. -/
  ny : Nat
  /-- Number of cells on the z axis. -/
  nz : Nat
  /-- The x axis has a cell. -/
  nx_pos : 0 < nx
  /-- The y axis has a cell. -/
  ny_pos : 0 < ny
  /-- The z axis has a cell. -/
  nz_pos : 0 < nz
  /-- Number of particles of each cell. -/
  cnumPars : Nat → Nat
  /-- The grids, in the order in which their threads run. -/
  grids : List Grid
  /-- Address of the array `cells`. -/
  cellsBase : Nat
  /-- Size of one block. -/
  sizeofCell : Nat
  /-- Offset of the array `p` in a block. -/
  offsetofP : Nat
  /-- Size of one entry of `p`. -/
  sizeofVec3 : Nat
  /-- Entries of `p` take room. -/
  sizeofVec3_pos : 0 < sizeofVec3
  /-- The array `p` lies inside its block. -/
  fits : offsetofP + perCell * sizeofVec3 ≤ sizeofCell

namespace Sim

variable (sim : Sim)

/-- The index of a cell in the arrays over the domain. -/
def index (cell : Coord) : Nat := (cell.iz * sim.ny + cell.iy) * sim.nx + cell.ix

/-- The address of an entry of the array `cells`. -/
def cellAt (index : Nat) : Nat := sim.cellsBase + index * sim.sizeofCell

/-- The cell lies in the domain. -/
def Inside (cell : Coord) : Prop := cell.ix < sim.nx ∧ cell.iy < sim.ny ∧ cell.iz < sim.nz

instance (cell : Coord) : Decidable (sim.Inside cell) :=
  inferInstanceAs (Decidable (_ ∧ _ ∧ _))

/-- The whole domain as one grid. -/
def domain : Grid := ⟨0, 0, 0, sim.nx, sim.ny, sim.nz⟩

/-- The cells of all grids together are the cells of the domain, each once. -/
def Partitioned : Prop := (sim.grids.flatMap Grid.cells).Perm sim.domain.cells

instance : Decidable sim.Partitioned := inferInstanceAs (Decidable (List.Perm _ _))

end Sim

/-- The cells of a grid. -/
theorem mem_cells {grid : Grid} {cell : Coord} :
    cell ∈ grid.cells ↔ (grid.sx ≤ cell.ix ∧ cell.ix < grid.ex) ∧
      (grid.sy ≤ cell.iy ∧ cell.iy < grid.ey) ∧ (grid.sz ≤ cell.iz ∧ cell.iz < grid.ez) := by
  obtain ⟨ix, iy, iz⟩ := cell
  simp only [Grid.cells, List.mem_flatMap, List.mem_map, mem_span, Coord.mk.injEq]
  constructor
  · rintro ⟨z, boundZ, y, boundY, x, boundX, rfl, rfl, rfl⟩
    exact ⟨boundX, boundY, boundZ⟩
  · rintro ⟨boundX, boundY, boundZ⟩
    exact ⟨iz, boundZ, iy, boundY, ix, boundX, rfl, rfl, rfl⟩

/-- A grid lists each of its cells once. -/
theorem cells_nodup (grid : Grid) : grid.cells.Nodup := by
  apply nodup_flatMap_of_tag Coord.iz (span_nodup _ _)
  · intro iz _
    apply nodup_flatMap_of_tag Coord.iy (span_nodup _ _)
    · intro iy _
      exact (span_nodup _ _).map fun _ _ same => congrArg Coord.ix same
    · intro iy _ cell member
      obtain ⟨ix, _, rfl⟩ := List.mem_map.mp member
      rfl
  · intro iz _ cell member
    obtain ⟨iy, _, inner⟩ := List.mem_flatMap.mp member
    obtain ⟨ix, _, rfl⟩ := List.mem_map.mp inner
    rfl

namespace Sim

variable {sim : Sim}

/-- The cells of the domain. -/
theorem mem_domain {cell : Coord} : cell ∈ sim.domain.cells ↔ sim.Inside cell := by
  simp [mem_cells, domain, Inside]

/-- A partition lists each cell of the domain once. -/
theorem Partitioned.nodup (partitioned : sim.Partitioned) :
    (sim.grids.flatMap Grid.cells).Nodup :=
  partitioned.nodup_iff.mpr (cells_nodup _)

/-- The cells of the grids are those of the domain. -/
theorem Partitioned.mem (partitioned : sim.Partitioned) {cell : Coord} :
    cell ∈ sim.grids.flatMap Grid.cells ↔ sim.Inside cell := by
  rw [partitioned.mem_iff, mem_domain]

/-- Two digits of one number in the same base are equal. -/
private theorem digits_eq {base high low high' low' : Nat} (bound : low < base)
    (bound' : low' < base) (same : high * base + low = high' * base + low') :
    high = high' ∧ low = low' := by
  have positive : 0 < base := by omega
  have quotient := congrArg (· / base) same
  have remainder := congrArg (· % base) same
  simp only [Nat.mul_comm _ base, Nat.mul_add_div positive, Nat.div_eq_of_lt bound,
    Nat.div_eq_of_lt bound', Nat.add_zero] at quotient
  simp only [Nat.mul_comm _ base, Nat.mul_add_mod, Nat.mod_eq_of_lt bound,
    Nat.mod_eq_of_lt bound'] at remainder
  exact ⟨quotient, remainder⟩

/-- Cells of the domain have different indices. -/
theorem index_injective {cell other : Coord} (inside : sim.Inside cell)
    (inside' : sim.Inside other) (same : sim.index cell = sim.index other) : cell = other := by
  obtain ⟨boundX, boundY, -⟩ := inside
  obtain ⟨boundX', boundY', -⟩ := inside'
  obtain ⟨rows, columns⟩ := digits_eq boundX boundX' same
  obtain ⟨planes, lines⟩ := digits_eq boundY boundY' rows
  cases cell
  cases other
  simp_all

end Sim

/-- The number of the block of the next particle. -/
theorem block_succ {perCell : Nat} (some : 0 < perCell) (j : Nat) :
    (j + 1) / perCell = if j % perCell = perCell - 1 then j / perCell + 1 else j / perCell := by
  have division := Nat.div_add_mod j perCell
  have remainder := Nat.mod_lt j some
  split
  · have whole : j + 1 = perCell * (j / perCell + 1) := by
      rw [Nat.mul_add, Nat.mul_one]
      omega
    conv_lhs => rw [whole]
    exact Nat.mul_div_cancel_left _ some
  · have whole : j + 1 = perCell * (j / perCell) + (j % perCell + 1) := by omega
    have fraction : (j % perCell + 1) / perCell = 0 := Nat.div_eq_of_lt (by omega)
    conv_lhs => rw [whole]
    rw [Nat.mul_add_div some, fraction, Nat.add_zero]

/-- `for(j = 0; j < np; ++j)` over the particles of a cell, from iteration `j` on with a
number of iterations left: the body runs on the current block, and after the last slot of a
block the pointer moves to the next one. -/
def forParticles {α : Type} (perCell : Nat) (body : Addr → Nat → Mem α → Option (Mem α)) :
    Nat → Nat → Option Addr → Mem α → Option (Mem α)
  | 0, _, _, mem => some mem
  | left + 1, j, pointer, mem => do
    let cell ← pointer
    let mem ← body cell j mem
    let pointer := if j % perCell = perCell - 1 then mem.next cell else some cell
    forParticles perCell body left (j + 1) pointer mem

/-- The walk over the particles of the cell with an index, from `&cells[index]` on. -/
def Sim.forCell {α : Type} (sim : Sim) (body : Addr → Nat → Mem α → Option (Mem α))
    (index : Nat) (mem : Mem α) : Option (Mem α) :=
  forParticles sim.perCell body (sim.cnumPars index) 0 (some (sim.cellAt index)) mem

/-- A particle of the domain: its cell and its number in the cell. -/
abbrev ParticleId := Coord × Nat

/-- The shape of a particle grid: each cell of the domain has its chain of blocks, long enough
for its particles, and no two blocks overlap. -/
structure Chains (sim : Sim) (next : Addr → Option Addr) where
  /-- The blocks of a cell, by its coordinates and the position in the chain. -/
  block : Coord → Nat → Nat
  /-- The chain of a cell starts at its entry of the array `cells`. -/
  head : ∀ cell, block cell 0 = sim.cellAt (sim.index cell)
  /-- While particles are left, a block points to the next block of the chain. -/
  linked : ∀ cell, sim.Inside cell → ∀ t,
    (t + 1) * sim.perCell < sim.cnumPars (sim.index cell) →
      next (block cell t) = some (block cell (t + 1))
  /-- Blocks that hold particles do not overlap. -/
  apart : ∀ cell other, sim.Inside cell → sim.Inside other → ∀ t t',
    t * sim.perCell < sim.cnumPars (sim.index cell) →
    t' * sim.perCell < sim.cnumPars (sim.index other) → (cell, t) ≠ (other, t') →
      block cell t + sim.sizeofCell ≤ block other t' ∨
        block other t' + sim.sizeofCell ≤ block cell t

/-- Where no cell has more particles than one block holds, the array `cells` is enough. -/
def Chains.ofHeads {sim : Sim} (next : Addr → Option Addr)
    (few : ∀ cell, sim.Inside cell → sim.cnumPars (sim.index cell) ≤ sim.perCell) :
    Chains sim next where
  block cell _ := sim.cellAt (sim.index cell)
  head _ := rfl
  linked cell inside t more := by
    have bound := few cell inside
    have whole : (t + 1) * sim.perCell = t * sim.perCell + sim.perCell := Nat.succ_mul _ _
    omega
  apart cell other inside inside' t t' used used' different := by
    have first : ∀ {count t : Nat}, count ≤ sim.perCell → t * sim.perCell < count → t = 0 := by
      intro count t bound below
      by_contra later
      have whole : sim.perCell ≤ t * sim.perCell := Nat.le_mul_of_pos_left _ (by omega)
      omega
    obtain rfl := first (few cell inside) used
    obtain rfl := first (few other inside') used'
    have indices : sim.index cell ≠ sim.index other := fun same =>
      different (by rw [Sim.index_injective inside inside' same])
    simp only [Sim.cellAt, Nat.add_assoc, ← Nat.succ_mul]
    rcases Nat.lt_or_gt_of_ne indices with below | above
    · exact Or.inl (Nat.add_le_add_left (Nat.mul_le_mul_right _ below) _)
    · exact Or.inr (Nat.add_le_add_left (Nat.mul_le_mul_right _ above) _)

/-- The particle is one of its cell, and the cell is in the domain. -/
def Sim.Holds (sim : Sim) (particle : ParticleId) : Prop :=
  sim.Inside particle.1 ∧ particle.2 < sim.cnumPars (sim.index particle.1)

/-- The address of an entry of the array `p` of a block. -/
def Sim.address (sim : Sim) (slot : Slot) : Nat :=
  slot.1 + sim.offsetofP + slot.2 * sim.sizeofVec3

namespace Chains

variable {sim : Sim} {next : Addr → Option Addr} (chains : Chains sim next)

/-- The slot in which a particle is stored. -/
def slot (particle : ParticleId) : Slot :=
  (chains.block particle.1 (particle.2 / sim.perCell), particle.2 % sim.perCell)

/-- Each block lies at its own address. -/
theorem block_injective {cell other : Coord} (inside : sim.Inside cell)
    (inside' : sim.Inside other) {t t' : Nat}
    (used : t * sim.perCell < sim.cnumPars (sim.index cell))
    (used' : t' * sim.perCell < sim.cnumPars (sim.index other))
    (same : chains.block cell t = chains.block other t') : cell = other ∧ t = t' := by
  by_contra different
  have room := sim.fits
  have positive := Nat.mul_pos sim.perCell_pos sim.sizeofVec3_pos
  have separate := chains.apart cell other inside inside' t t' used used'
    (fun equal => different ⟨congrArg Prod.fst equal, congrArg Prod.snd equal⟩)
  omega

/-- The block of a particle holds particles. -/
theorem block_used {particle : ParticleId} (holds : sim.Holds particle) :
    particle.2 / sim.perCell * sim.perCell < sim.cnumPars (sim.index particle.1) :=
  lt_of_le_of_lt (Nat.div_mul_le_self _ _) holds.2

/-- Particles are stored in different slots. -/
theorem slot_injective {particle other : ParticleId} (holds : sim.Holds particle)
    (holds' : sim.Holds other) (same : chains.slot particle = chains.slot other) :
    particle = other := by
  obtain ⟨cell, j⟩ := particle
  obtain ⟨cell', j'⟩ := other
  obtain ⟨rfl, blocks⟩ := chains.block_injective holds.1 holds'.1 (block_used holds)
    (block_used holds') (congrArg Prod.fst same)
  have slots : j % sim.perCell = j' % sim.perCell := congrArg Prod.snd same
  have whole : j = j' := by
    rw [← Nat.div_add_mod j sim.perCell, ← Nat.div_add_mod j' sim.perCell, slots]
    exact congrArg (fun quotient => sim.perCell * quotient + j' % sim.perCell) blocks
  rw [whole]

/-- Behind the last slot of a block the chain goes on while particles are left. -/
theorem linked_of_last {cell : Coord} (inside : sim.Inside cell) {j : Nat}
    (last : j % sim.perCell = sim.perCell - 1) (more : j + 1 < sim.cnumPars (sim.index cell)) :
    next (chains.block cell (j / sim.perCell)) =
      some (chains.block cell (j / sim.perCell + 1)) := by
  refine chains.linked cell inside _ ?_
  have division := Nat.div_add_mod j sim.perCell
  have positive := sim.perCell_pos
  rw [Nat.mul_comm, Nat.mul_add, Nat.mul_one]
  omega

/-- A walk over the particles of a cell runs the body on their blocks, in order, and follows
no null pointer, when the body changes no link. -/
theorem forCell_eq {α : Type} {body : Addr → Nat → Mem α → Option (Mem α)} {cell : Coord}
    (inside : sim.Inside cell)
    (keeps : ∀ j mem after, mem.next = next →
      body (chains.block cell (j / sim.perCell)) j mem = some after → after.next = next)
    (mem : Mem α) (links : mem.next = next) :
    sim.forCell body (sim.index cell) mem =
      (List.range (sim.cnumPars (sim.index cell))).foldlM
        (fun mem j => body (chains.block cell (j / sim.perCell)) j mem) mem := by
  -- The induction is on the iterations left; the pointer matters only while some are left.
  have walk : ∀ left j (pointer : Option Addr) (mem : Mem α), mem.next = next →
      j + left = sim.cnumPars (sim.index cell) →
      (0 < left → pointer = some (chains.block cell (j / sim.perCell))) →
      forParticles sim.perCell body left j pointer mem =
        (List.range' j left).foldlM
          (fun mem j => body (chains.block cell (j / sim.perCell)) j mem) mem := by
    intro left
    induction left with
    | zero => intros; simp [forParticles]
    | succ left ih =>
      intro j pointer mem links total current
      obtain rfl := current (Nat.succ_pos left)
      rw [List.range'_succ, List.foldlM_cons]
      simp only [forParticles, bind, Option.bind]
      cases ran : body (chains.block cell (j / sim.perCell)) j mem with
      | none => rfl
      | some after =>
        have kept := keeps j mem after links ran
        refine ih (j + 1) _ after kept (by omega) fun more => ?_
        rw [block_succ sim.perCell_pos]
        split
        · rename_i last
          rw [kept, chains.linked_of_last inside last (by omega)]
        · rfl
  rw [Sim.forCell, List.range_eq_range']
  refine walk _ 0 _ mem links (Nat.zero_add _) fun _ => ?_
  rw [Nat.zero_div, chains.head]

/-- A walk whose body never faults and changes no link is a pure loop over the numbers of the
particles of the cell. -/
theorem forCell_eq_foldl {α : Type} {body : Addr → Nat → Mem α → Option (Mem α)}
    {step : Mem α → Nat → Mem α} {cell : Coord} (inside : sim.Inside cell)
    (runs : ∀ j mem, mem.next = next →
      body (chains.block cell (j / sim.perCell)) j mem = some (step mem j))
    (keeps : ∀ mem j, (step mem j).next = mem.next) (mem : Mem α) (links : mem.next = next) :
    sim.forCell body (sim.index cell) mem =
      some ((List.range (sim.cnumPars (sim.index cell))).foldl step mem) := by
  rw [chains.forCell_eq inside ?_ mem links]
  · apply foldlM_eq_foldl (fun mem => mem.next = next) _ _ _ mem links
    · intro mem links j _
      exact runs j mem links
    · intro mem links j _
      exact (keeps mem j).trans links
  · intro j mem after links ran
    rw [runs j mem links] at ran
    cases ran
    exact (keeps mem j).trans links

/-- Particles lie at different addresses. -/
theorem address_injective {particle other : ParticleId} (holds : sim.Holds particle)
    (holds' : sim.Holds other)
    (same : sim.address (chains.slot particle) = sim.address (chains.slot other)) :
    particle = other := by
  apply chains.slot_injective holds holds'
  have room := sim.fits
  have used := block_used holds
  have used' := block_used holds'
  -- An entry of `p` ends before its block does.
  have inBlock : ∀ j : Nat,
      j % sim.perCell * sim.sizeofVec3 + sim.sizeofVec3 ≤ sim.perCell * sim.sizeofVec3 := by
    intro j
    rw [← Nat.succ_mul]
    exact Nat.mul_le_mul_right _ (Nat.mod_lt j sim.perCell_pos)
  have inside := inBlock particle.2
  have inside' := inBlock other.2
  have positive := sim.sizeofVec3_pos
  simp only [Sim.address, slot] at same
  by_cases sameBlock : (particle.1, particle.2 / sim.perCell) = (other.1, other.2 / sim.perCell)
  · rw [Prod.mk.injEq] at sameBlock
    obtain ⟨cells, blocks⟩ := sameBlock
    rw [cells, blocks] at same
    have offsets : particle.2 % sim.perCell * sim.sizeofVec3 =
        other.2 % sim.perCell * sim.sizeofVec3 := by omega
    simp only [slot, cells, blocks, Nat.eq_of_mul_eq_mul_right positive offsets]
  · have separate := chains.apart particle.1 other.1 holds.1 holds'.1 _ _ used used' sameBlock
    omega

end Chains

end P3arsec.Fluidanimate
