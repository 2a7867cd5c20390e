import P3arsec.Fluidanimate.Pairs

/-!
# The partition of the domain and its border cells

`InitSim` divides the domain into grids along the x and the z axis and marks the cells that touch
another grid. In the phases a thread writes to the cells of its grid and to the cells around them,
and locks a mutex of a cell only where the cell is marked. A cell that is not marked is written to
by one thread only (`Sim.near_of_unmarked`), so that two threads that write to the same place do so
under the same mutex. `RebuildGridMT` locks a cell to take the next free slot, and copies the
particle to it afterwards.
-/

namespace P3arsec.Fluidanimate

open P3arsec.Lib

/-- `MUTEXES_PER_CELL`. -/
def mutexesPerCell : Nat := 128

/-- `CELL_MUTEX_ID`. -/
def cellMutexId : Nat := 0

/-- `ZDIVS` for `threadnum` with the lowest bit at a position. -/
def zdivs (lsb : Nat) : Nat := 2 ^ (lsb / 2)

/-- `XDIVS`. -/
def xdivs (lsb : Nat) : Nat :=
  if 2 ^ (lsb / 2) * zdivs lsb = 2 ^ lsb then 2 ^ (lsb / 2) else 2 ^ (lsb / 2) * 2

/-- The begin of a grid along an axis with `n` cells, in `fptype`. -/
def bound (round : ℚ → ℚ) (n divs i : Nat) : Nat :=
  if i = 0 then 0 else ⌊round (round (n / divs) * i) + 1 / 2⌋.toNat

namespace Sim

variable (sim : Sim)

/-- The grids of `InitSim`. -/
def initGrids (round : ℚ → ℚ) (lsb : Nat) : List Grid :=
  (List.range (xdivs lsb)).flatMap fun i => (List.range (zdivs lsb)).map fun j =>
    { sx := bound round sim.nx (xdivs lsb) i
      ex := bound round sim.nx (xdivs lsb) (i + 1)
      sy := 0
      ey := sim.ny
      sz := bound round sim.nz (zdivs lsb) j
      ez := bound round sim.nz (zdivs lsb) (j + 1) }

/-- A coordinate is confined to the domain. -/
def confine (i : Int) (n : Nat) : Int := if i < 0 then 0 else if i > n - 1 then n - 1 else i

/-- The test of `InitSim` for a cell of a grid: a cell around it is outside of the grid. -/
def touches (grid : Grid) (cell : Coord) : Bool :=
  offsets.any fun dk => offsets.any fun dj => offsets.any fun di =>
    let ci := confine (cell.ix + di) sim.nx
    let cj := confine (cell.iy + dj) sim.ny
    let ck := confine (cell.iz + dk) sim.nz
    decide (ci < grid.sx ∨ ci ≥ grid.ex ∨ cj < grid.sy ∨ cj ≥ grid.ey ∨ ck < grid.sz ∨ ck ≥ grid.ez)

/-- The loops of `InitSim` that set `border`. -/
def initBorder (border : Nat → Bool) : Nat → Bool :=
  sim.grids.foldl (fun border grid => grid.cells.foldl (fun border cell =>
    Function.update border (sim.index cell) (sim.touches grid cell)) border) border

end Sim

/-- A simulation whose grids `InitSim` has accepted. The numbers of cells are truncated from values
of `fptype`, so that they and their parts by powers of two are values of it. -/
structure InitSim (sim : Sim) where
  /-- The position of the bit of `threadnum`, which is a power of two. -/
  lsb : Nat
  /-- The rounding of `fptype`. -/
  round : ℚ → ℚ
  /-- Neither `nx` nor its quotient by the divisions is rounded. -/
  exactX : round sim.nx = sim.nx ∧ round (sim.nx / xdivs lsb) = sim.nx / xdivs lsb
  /-- Neither `nz` nor its quotient by the divisions is rounded. -/
  exactZ : round sim.nz = sim.nz ∧ round (sim.nz / zdivs lsb) = sim.nz / zdivs lsb
  /-- The grids. -/
  grids : sim.grids = sim.initGrids round lsb
  /-- The assertion that a grid has cells along the x axis. -/
  assertX : ∀ i < xdivs lsb,
    bound round sim.nx (xdivs lsb) i < bound round sim.nx (xdivs lsb) (i + 1)
  /-- The assertion that a grid has cells along the z axis. -/
  assertZ : ∀ j < zdivs lsb,
    bound round sim.nz (zdivs lsb) j < bound round sim.nz (zdivs lsb) (j + 1)

/-- The divisions make as many grids as there are threads. -/
theorem xdivs_mul_zdivs (lsb : Nat) : xdivs lsb * zdivs lsb = 2 ^ lsb := by
  unfold xdivs zdivs
  rcases Nat.even_or_odd' lsb with ⟨half, rfl | rfl⟩
  · have whole : 2 * half / 2 = half := by omega
    rw [whole, ← pow_add, ← two_mul, if_pos rfl, ← pow_add, ← two_mul]
  · have whole : (2 * half + 1) / 2 = half := by omega
    have next : 2 ^ (2 * half + 1) = 2 ^ half * 2 ^ half * 2 := by
      rw [pow_succ, two_mul, pow_add]
    have positive : 0 < 2 ^ half * 2 ^ half := by positivity
    rw [whole, next, if_neg (by omega)]
    ring

/-- The divisions are powers of two. -/
theorem xdivs_eq (lsb : Nat) : ∃ k, xdivs lsb = 2 ^ k := by
  unfold xdivs
  split
  · exact ⟨_, rfl⟩
  · exact ⟨lsb / 2 + 1, rfl⟩

/-- There is a division along the z axis. -/
theorem zdivs_pos (lsb : Nat) : 0 < zdivs lsb := Nat.two_pow_pos _

/-- There is a division along the x axis. -/
theorem xdivs_pos (lsb : Nat) : 0 < xdivs lsb := by
  obtain ⟨power, same⟩ := xdivs_eq lsb
  rw [same]
  exact Nat.two_pow_pos _

section Bounds

variable {round : ℚ → ℚ} {n divs : Nat}

/-- The first grid begins with the domain. -/
theorem bound_zero : bound round n divs 0 = 0 := rfl

/-- The last grid ends with the domain. -/
theorem bound_last (positive : 0 < divs)
    (exact_ : round n = n ∧ round (n / divs) = n / divs) : bound round n divs divs = n := by
  obtain ⟨unit, quotient⟩ := exact_
  have whole : (n : ℚ) / divs * divs = n :=
    div_mul_cancel₀ _ (by exact_mod_cast positive.ne')
  have half : ⌊(1 / 2 : ℚ)⌋ = 0 := by
    norm_num
  rw [bound, if_neg positive.ne', quotient, whole, unit, Int.floor_natCast_add, half, add_zero,
    Int.toNat_natCast]

/-- Every number below the last bound lies between two bounds. -/
theorem exists_between {f : Nat → Nat} (begins : f 0 = 0) {n x : Nat} (below : x < f n) :
    ∃ i < n, f i ≤ x ∧ x < f (i + 1) := by
  induction n with
  | zero => omega
  | succ n ih =>
    by_cases earlier : x < f n
    · obtain ⟨i, less, between⟩ := ih earlier
      exact ⟨i, by omega, between⟩
    · exact ⟨n, by omega, by omega, below⟩

/-- Increasing bounds. -/
theorem bounds_mono {f : Nat → Nat} {n : Nat} (increases : ∀ i < n, f i < f (i + 1)) {i j : Nat}
    (less : i ≤ j) (inside : j ≤ n) : f i ≤ f j := by
  induction j, less using Nat.le_induction with
  | base => exact le_rfl
  | succ j _ ih =>
    have before := ih (by omega)
    have next := increases j (by omega)
    omega

/-- A number lies between one pair of bounds only. -/
theorem between_unique {f : Nat → Nat} {n : Nat} (increases : ∀ i < n, f i < f (i + 1))
    {i j x : Nat} (insideI : i < n) (insideJ : j < n) (hereI : f i ≤ x ∧ x < f (i + 1))
    (hereJ : f j ≤ x ∧ x < f (j + 1)) : i = j := by
  rcases Nat.lt_trichotomy i j with less | same | greater
  · have apart := bounds_mono increases (show i + 1 ≤ j from less) (by omega)
    omega
  · exact same
  · have apart := bounds_mono increases (show j + 1 ≤ i from greater) (by omega)
    omega

end Bounds

namespace InitSim

variable {sim : Sim}

/-- The grid in a column and a row of the partition. -/
def grid (init : InitSim sim) (i j : Nat) : Grid where
  sx := bound init.round sim.nx (xdivs init.lsb) i
  ex := bound init.round sim.nx (xdivs init.lsb) (i + 1)
  sy := 0
  ey := sim.ny
  sz := bound init.round sim.nz (zdivs init.lsb) j
  ez := bound init.round sim.nz (zdivs init.lsb) (j + 1)

/-- There is one grid for each thread. -/
theorem length_grids (init : InitSim sim) : sim.grids.length = 2 ^ init.lsb := by
  rw [init.grids, Sim.initGrids, List.length_flatMap]
  simp [xdivs_mul_zdivs]

/-- The cells of the grids, column by column. -/
theorem cells_eq (init : InitSim sim) : sim.grids.flatMap Grid.cells =
    (List.range (xdivs init.lsb)).flatMap fun i => (List.range (zdivs init.lsb)).flatMap fun j =>
      (init.grid i j).cells := by
  rw [init.grids, Sim.initGrids, List.flatMap_assoc]
  apply List.flatMap_congr
  intro i _
  rw [List.flatMap_map]
  rfl

/-- The bounds along the x axis end with the domain. -/
theorem lastX (init : InitSim sim) :
    bound init.round sim.nx (xdivs init.lsb) (xdivs init.lsb) = sim.nx :=
  bound_last (xdivs_pos _) init.exactX

/-- The bounds along the z axis end with the domain. -/
theorem lastZ (init : InitSim sim) :
    bound init.round sim.nz (zdivs init.lsb) (zdivs init.lsb) = sim.nz :=
  bound_last (zdivs_pos _) init.exactZ

/-- The grids of `InitSim` partition the domain. -/
theorem partitioned (init : InitSim sim) : sim.Partitioned := by
  have nodup : (sim.grids.flatMap Grid.cells).Nodup := by
    rw [init.cells_eq]
    apply nodup_flatMap_of_unique List.nodup_range
    · intro i _
      apply nodup_flatMap_of_unique List.nodup_range
      · exact fun j _ => cells_nodup _
      · intro j inside j' inside' cell member member'
        exact between_unique init.assertZ (List.mem_range.mp inside) (List.mem_range.mp inside')
          (mem_cells.mp member).2.2 (mem_cells.mp member').2.2
    · intro i inside i' inside' cell member member'
      obtain ⟨j, -, member⟩ := List.mem_flatMap.mp member
      obtain ⟨j', -, member'⟩ := List.mem_flatMap.mp member'
      exact between_unique init.assertX (List.mem_range.mp inside) (List.mem_range.mp inside')
        (mem_cells.mp member).1 (mem_cells.mp member').1
  refine (List.perm_ext_iff_of_nodup nodup (cells_nodup _)).mpr fun cell => ?_
  rw [Sim.mem_domain, init.cells_eq]
  simp only [List.mem_flatMap, List.mem_range, mem_cells]
  constructor
  · rintro ⟨i, insideI, j, insideJ, ⟨-, belowX⟩, ⟨-, belowY⟩, -, belowZ⟩
    have endX := bounds_mono init.assertX (show i + 1 ≤ _ from insideI) le_rfl
    have endZ := bounds_mono init.assertZ (show j + 1 ≤ _ from insideJ) le_rfl
    rw [init.lastX] at endX
    rw [init.lastZ] at endZ
    exact ⟨lt_of_lt_of_le belowX endX, belowY, lt_of_lt_of_le belowZ endZ⟩
  · rintro ⟨belowX, belowY, belowZ⟩
    rw [← init.lastX] at belowX
    rw [← init.lastZ] at belowZ
    obtain ⟨i, insideI, betweenX⟩ := exists_between bound_zero belowX
    obtain ⟨j, insideJ, betweenZ⟩ := exists_between bound_zero belowZ
    exact ⟨i, insideI, j, insideJ, betweenX, ⟨Nat.zero_le _, belowY⟩, betweenZ⟩

end InitSim

namespace Sim

variable {sim : Sim}

/-- A cell lies in the grid of one thread only. -/
theorem Partitioned.thread_unique (partitioned : sim.Partitioned) {a b : Nat} {cell : Coord}
    (ha : a < sim.grids.length) (hb : b < sim.grids.length) (inside : cell ∈ sim.grids[a].cells)
    (inside' : cell ∈ sim.grids[b].cells) : a = b := by
  have apart := List.pairwise_iff_getElem.mp (List.nodup_flatMap.mp partitioned.nodup).2
  rcases Nat.lt_trichotomy a b with less | same | greater
  · exact absurd inside' (apart a b ha hb less inside)
  · exact same
  · exact absurd inside (apart b a hb ha greater inside')

/-- A cell lies in one grid only. -/
theorem Partitioned.grid_unique (partitioned : sim.Partitioned) {grid other : Grid} {cell : Coord}
    (member : grid ∈ sim.grids) (member' : other ∈ sim.grids) (inside : cell ∈ grid.cells)
    (inside' : cell ∈ other.cells) : grid = other := by
  obtain ⟨a, ha, rfl⟩ := List.getElem_of_mem member
  obtain ⟨b, hb, rfl⟩ := List.getElem_of_mem member'
  have same := partitioned.thread_unique ha hb inside inside'
  subst same
  rfl

/-- The cells of the grids lie in the domain. -/
theorem Partitioned.inside (partitioned : sim.Partitioned) {grid : Grid} {cell : Coord}
    (member : grid ∈ sim.grids) (here : cell ∈ grid.cells) : sim.Inside cell :=
  partitioned.mem.mp (List.mem_flatMap.mpr ⟨grid, member, here⟩)

/-- The loops of `InitSim` set every cell once, by its own grid. -/
theorem initBorder_eq (partitioned : sim.Partitioned) (border : Nat → Bool) {grid : Grid}
    {cell : Coord} (member : grid ∈ sim.grids) (here : cell ∈ grid.cells) :
    sim.initBorder border (sim.index cell) = sim.touches grid cell := by
  have flat : sim.initBorder border =
      (sim.grids.flatMap fun grid => grid.cells.map fun cell => (grid, cell)).foldl
        (fun border entry =>
          Function.update border (sim.index entry.2) (sim.touches entry.1 entry.2)) border := by
    rw [initBorder, List.foldl_flatMap]
    simp only [List.foldl_map]
  have entries : ∀ entry : Grid × Coord,
      (entry ∈ sim.grids.flatMap fun grid => grid.cells.map fun cell => (grid, cell)) ↔
        entry.1 ∈ sim.grids ∧ entry.2 ∈ entry.1.cells := by
    rintro ⟨grid, cell⟩
    simp only [List.mem_flatMap, List.mem_map, Prod.mk.injEq]
    constructor
    · rintro ⟨_, member, _, here, rfl, rfl⟩
      exact ⟨member, here⟩
    · rintro ⟨member, here⟩
      exact ⟨grid, member, cell, here, rfl, rfl⟩
  rw [flat]
  apply foldl_update
  · intro entry member' same
    obtain ⟨known, inside⟩ := (entries entry).mp member'
    have cells := index_injective (partitioned.inside known inside)
      (partitioned.inside member here) same
    rw [cells] at inside
    rw [cells, partitioned.grid_unique known member inside here]
  · exact ⟨(grid, cell), (entries _).mpr ⟨member, here⟩, rfl⟩

/-- In the domain nothing is confined. -/
theorem confine_eq {i n : Nat} (below : i < n) : confine i n = i := by
  unfold confine
  split_ifs <;> omega

/-- The cells around a cell that does not touch another grid are in its grid. -/
theorem near_of_untouched {grid : Grid} {cell other : Coord}
    (clear : sim.touches grid cell = false) (inside : sim.Inside other) (near : Near cell other) :
    other ∈ grid.cells := by
  obtain ⟨belowX, belowY, belowZ⟩ := inside
  obtain ⟨nearX, nearY, nearZ⟩ := near
  have steps : ∀ step : Int, step ∈ offsets ↔ step = -1 ∨ step = 0 ∨ step = 1 := by
    simp [offsets]
  simp only [touches, List.any_eq_false, Bool.not_eq_true, decide_eq_false_iff_not] at clear
  have here := clear ((other.iz : Int) - cell.iz) ((steps _).mpr (by omega))
    ((other.iy : Int) - cell.iy) ((steps _).mpr (by omega))
    ((other.ix : Int) - cell.ix) ((steps _).mpr (by omega))
  rw [add_sub_cancel, add_sub_cancel, add_sub_cancel, confine_eq belowX, confine_eq belowY,
    confine_eq belowZ] at here
  rw [mem_cells]
  omega

/-- The cells around a cell that is not marked are in its grid. -/
theorem near_of_unmarked (partitioned : sim.Partitioned) {border : Nat → Bool} {grid : Grid}
    {cell other : Coord} (member : grid ∈ sim.grids) (here : cell ∈ grid.cells)
    (unmarked : sim.initBorder border (sim.index cell) = false) (inside : sim.Inside other)
    (near : Near cell other) : other ∈ grid.cells := by
  rw [initBorder_eq partitioned border member here] at unmarked
  exact near_of_untouched unmarked inside near

/-- A cell that two threads have around cells of their grids is marked. -/
theorem marked_of_shared (partitioned : sim.Partitioned) {border : Nat → Bool} {a b : Nat}
    {cell mine yours : Coord} (ha : a < sim.grids.length) (hb : b < sim.grids.length)
    (distinct : a ≠ b) (inside : sim.Inside cell) (hereA : mine ∈ sim.grids[a].cells)
    (nearA : Near mine cell) (hereB : yours ∈ sim.grids[b].cells) (nearB : Near yours cell) :
    sim.initBorder border (sim.index cell) = true := by
  by_contra unmarked
  rw [Bool.not_eq_true] at unmarked
  obtain ⟨grid, member, here⟩ := List.mem_flatMap.mp (partitioned.mem.mpr inside)
  have memberA : sim.grids[a] ∈ sim.grids := List.getElem_mem ha
  have memberB : sim.grids[b] ∈ sim.grids := List.getElem_mem hb
  -- both cells are then in the grid of the cell
  have inA := near_of_unmarked partitioned member here unmarked
    (partitioned.inside memberA hereA) (near_comm.mp nearA)
  have inB := near_of_unmarked partitioned member here unmarked
    (partitioned.inside memberB hereB) (near_comm.mp nearB)
  have sameA := partitioned.grid_unique member memberA inA hereA
  rw [sameA] at inB
  exact distinct (partitioned.thread_unique ha hb inB hereB)

/-- A cell is around itself. -/
theorem near_refl (cell : Coord) : Near cell cell := by
  unfold Near
  omega

end Sim

/-- A place that a phase writes to: the density or the acceleration of a particle; the count, the
last block and the links of a cell; or a slot of a cell. -/
inductive Place where
  /-- A particle, by the index of its cell and its number in it. -/
  | particle (index ipar : Nat)
  /-- The count, the last block and the links of a cell. -/
  | chain (index : Nat)
  /-- A slot, by the index of the cell and the number of the slot in it. -/
  | slot (index np : Nat)
  deriving DecidableEq, Repr

/-- The index of the cell. -/
def Place.cell : Place → Nat
  | .particle index _ => index
  | .chain index => index
  | .slot index _ => index

/-- The number in the array of mutexes of the cell. -/
def Place.mutex : Place → Nat
  | .particle _ ipar => ipar % mutexesPerCell
  | .chain _ => cellMutexId
  | .slot _ _ => 0

/-- The place is a slot. -/
def Place.isSlot : Place → Bool
  | .slot _ _ => true
  | _ => false

/-- A write of a phase. -/
structure Write where
  /-- Where it writes to. -/
  place : Place
  /-- The mutex under which it writes, by the index of a cell and its number there. -/
  mutex : Option (Nat × Nat)
  deriving DecidableEq, Repr

/-- A write that locks the mutex of a marked cell. -/
def guarded (border : Nat → Bool) (place : Place) : Write where
  place := place
  mutex := if border place.cell then some (place.cell, place.mutex) else none

namespace Sim

variable (sim : Sim)

/-- The writes of `ComputeDensitiesMT` and `ComputeForcesMT` for the cells of a grid, where
`passes` tells of the tests of the addresses and the distance of two particles. -/
def pairWrites (border : Nat → Bool) (passes : Nat × Nat → Nat × Nat → Bool) (grid : Grid) :
    List Write :=
  grid.cells.flatMap fun cell =>
    (List.range (sim.cnumPars (sim.index cell))).flatMap fun ipar =>
      (sim.initNeighCellList cell.ix cell.iy cell.iz).flatMap fun indexNeigh =>
        (List.range (sim.cnumPars indexNeigh)).flatMap fun iparNeigh =>
          if passes (sim.index cell, ipar) (indexNeigh, iparNeigh) then
            [guarded border (.particle (sim.index cell) ipar),
              guarded border (.particle indexNeigh iparNeigh)]
          else []

/-- The writes of `RebuildGridMT` by the threads that insert particles into cells, in the order in
which they take the slots: each one takes the next slot of the cell, and then copies the particle to
it, which it does without a lock. -/
def rebuildWrites (border : Nat → Bool) : (Nat → Nat) → List (Nat × Coord) → List (Nat × Write)
  | _, [] => []
  | counts, (tid, cell) :: order =>
    (tid, guarded border (.chain (sim.index cell))) ::
    (tid, ⟨.slot (sim.index cell) (counts (sim.index cell)), none⟩) ::
    rebuildWrites border
      (Function.update counts (sim.index cell) (counts (sim.index cell) + 1)) order

/-- A thread inserts a particle from a cell of its grid into a cell around it. -/
def Moves (insertion : Nat × Coord) : Prop :=
  ∃ h : insertion.1 < sim.grids.length, ∃ source ∈ sim.grids[insertion.1].cells,
    Near source insertion.2 ∧ sim.Inside insertion.2

variable {sim} {border : Nat → Bool}

/-- A thread writes to particles of cells around cells of its grid. -/
theorem mem_pairWrites (partitioned : sim.Partitioned) {passes : Nat × Nat → Nat × Nat → Bool}
    {grid : Grid} (member : grid ∈ sim.grids) {write : Write}
    (writes : write ∈ sim.pairWrites border passes grid) :
    ∃ cell ∈ grid.cells, ∃ other, sim.Inside other ∧ Near cell other ∧
      ∃ ipar, write = guarded border (.particle (sim.index other) ipar) := by
  simp only [pairWrites, List.mem_flatMap] at writes
  obtain ⟨cell, here, ipar, -, indexNeigh, neighbour, iparNeigh, -, written⟩ := writes
  have inside := partitioned.inside member here
  split at written
  · rw [initNeighCellList_eq, List.mem_map] at neighbour
    obtain ⟨other, around, rfl⟩ := neighbour
    rcases List.mem_cons.mp written with first | second
    · exact ⟨cell, here, cell, inside, near_refl cell, ipar, first⟩
    · rw [List.mem_singleton] at second
      rcases (sim.mem_neighCoords).mp around with same | ⟨insideOther, near, -⟩
      · rw [same] at second
        exact ⟨cell, here, cell, inside, near_refl cell, iparNeigh, second⟩
      · exact ⟨cell, here, other, insideOther, near, iparNeigh, second⟩
  · cases written

/-- A write of `RebuildGridMT` belongs to an insertion: it is made under the mutex of the cell, or
it goes to a slot that was free before. -/
theorem mem_rebuildWrites {counts : Nat → Nat} {order : List (Nat × Coord)}
    {entry : Nat × Write} (writes : entry ∈ sim.rebuildWrites border counts order) :
    ∃ insertion ∈ order, entry.1 = insertion.1 ∧
      (entry.2 = guarded border (.chain (sim.index insertion.2)) ∨
        ∃ np, counts (sim.index insertion.2) ≤ np ∧
          entry.2 = ⟨.slot (sim.index insertion.2) np, none⟩) := by
  induction order generalizing counts with
  | nil => cases writes
  | cons insertion order ih =>
    obtain ⟨tid, cell⟩ := insertion
    unfold rebuildWrites at writes
    rcases List.mem_cons.mp writes with chain | writes
    · exact ⟨(tid, cell), List.mem_cons_self, by rw [chain], .inl (by rw [chain])⟩
    rcases List.mem_cons.mp writes with slot | later
    · exact ⟨(tid, cell), List.mem_cons_self, by rw [slot], .inr ⟨_, le_rfl, by rw [slot]⟩⟩
    · obtain ⟨insertion, member, same, kind⟩ := ih later
      refine ⟨insertion, List.mem_cons_of_mem _ member, same, kind.imp_right ?_⟩
      rintro ⟨np, free, slot⟩
      refine ⟨np, le_trans ?_ free, slot⟩
      rw [Function.update_apply]
      split
      · rename_i here
        rw [here]
        exact Nat.le_succ _
      · exact le_rfl

/-- No two insertions take the same slot. -/
theorem slots_nodup (border : Nat → Bool) (counts : Nat → Nat) (order : List (Nat × Coord)) :
    (((sim.rebuildWrites border counts order).map fun entry => entry.2.place).filter
      Place.isSlot).Nodup := by
  induction order generalizing counts with
  | nil => exact List.nodup_nil
  | cons insertion order ih =>
    obtain ⟨tid, cell⟩ := insertion
    rw [rebuildWrites, List.map_cons, List.filter_cons_of_neg (by simp [guarded, Place.isSlot]),
      List.map_cons, List.filter_cons_of_pos rfl, List.nodup_cons]
    refine ⟨fun again => ?_, ih _⟩
    obtain ⟨entry, member, same⟩ := List.mem_map.mp (List.mem_filter.mp again).1
    obtain ⟨insertion, -, -, chain | ⟨np, free, slot⟩⟩ := mem_rebuildWrites member
    · rw [chain] at same
      cases same
    · -- a later insertion into the cell finds the count increased
      rw [slot] at same
      injection same with index number
      rw [index, Function.update_self, number] at free
      omega

/-- The cell of an insertion is marked when another thread inserts into it too. -/
theorem marked_of_moves (partitioned : sim.Partitioned) {border : Nat → Bool}
    {insertion other : Nat × Coord} (moves : sim.Moves insertion) (moves' : sim.Moves other)
    (distinct : insertion.1 ≠ other.1) (same : sim.index insertion.2 = sim.index other.2) :
    sim.initBorder border (sim.index insertion.2) = true := by
  obtain ⟨ha, mine, hereA, nearA, inside⟩ := moves
  obtain ⟨hb, yours, hereB, nearB, inside'⟩ := moves'
  rw [← index_injective inside inside' same] at nearB
  exact marked_of_shared partitioned ha hb distinct inside hereA nearA hereB nearB

end Sim

/-- For every partition that `InitSim` accepts, whatever the array `border` contained before: the
cells around a cell that is not marked are in its grid. When two threads write to particles of a
cell in `ComputeDensitiesMT` or `ComputeForcesMT` the cell is marked and both lock the mutex that
belongs to the particle they write to. When two threads insert particles into a cell in
`RebuildGridMT`, in any order of insertions into cells around cells of their grids, the cell is
marked and both lock the same mutex to take a slot, and no two insertions take the same slot. -/
theorem writes_guarded {sim : Sim} (init : InitSim sim) (garbage : Nat → Bool) :
    (∀ grid ∈ sim.grids, ∀ cell ∈ grid.cells,
      sim.initBorder garbage (sim.index cell) = false →
        ∀ other, sim.Inside other → Sim.Near cell other → other ∈ grid.cells) ∧
    (∀ passes, ∀ a b, ∀ (ha : a < sim.grids.length) (hb : b < sim.grids.length), a ≠ b →
      ∀ write ∈ sim.pairWrites (sim.initBorder garbage) passes sim.grids[a],
      ∀ other ∈ sim.pairWrites (sim.initBorder garbage) passes sim.grids[b],
        write.place.cell = other.place.cell →
          sim.initBorder garbage write.place.cell = true ∧
          write.mutex = some (write.place.cell, write.place.mutex) ∧
          other.mutex = some (other.place.cell, other.place.mutex)) ∧
    (∀ counts order, (∀ insertion ∈ order, sim.Moves insertion) →
      (∀ write ∈ sim.rebuildWrites (sim.initBorder garbage) counts order,
        ∀ other ∈ sim.rebuildWrites (sim.initBorder garbage) counts order,
          write.1 ≠ other.1 → write.2.place.cell = other.2.place.cell →
            sim.initBorder garbage write.2.place.cell = true ∧
            (write.2.place.isSlot = false → other.2.place.isSlot = false →
              write.2.mutex = some (write.2.place.cell, cellMutexId) ∧
              other.2.mutex = some (other.2.place.cell, cellMutexId))) ∧
      (((sim.rebuildWrites (sim.initBorder garbage) counts order).map fun entry =>
        entry.2.place).filter Place.isSlot).Nodup) := by
  have partitioned := init.partitioned
  refine ⟨fun grid member cell here unmarked other inside near => ?_,
    fun passes a b ha hb distinct write writes other writes' same => ?_,
    fun counts order moves => ⟨fun write writes other writes' distinct same => ?_, ?_⟩⟩
  · exact Sim.near_of_unmarked partitioned member here unmarked inside near
  · obtain ⟨mine, hereA, cell, inside, nearA, ipar, rfl⟩ :=
      Sim.mem_pairWrites partitioned (List.getElem_mem ha) writes
    obtain ⟨yours, hereB, cell', inside', nearB, ipar', rfl⟩ :=
      Sim.mem_pairWrites partitioned (List.getElem_mem hb) writes'
    obtain rfl := Sim.index_injective inside inside' same
    have marked : sim.initBorder garbage (sim.index cell) = true :=
      Sim.marked_of_shared partitioned ha hb distinct inside hereA nearA hereB nearB
    exact ⟨marked, if_pos marked, if_pos marked⟩
  · obtain ⟨insertion, member, thread, kind⟩ := Sim.mem_rebuildWrites writes
    obtain ⟨insertion', member', thread', kind'⟩ := Sim.mem_rebuildWrites writes'
    rw [thread, thread'] at distinct
    have cell : write.2.place.cell = sim.index insertion.2 := by
      rcases kind with chain | ⟨np, -, slot⟩
      · rw [chain]
        rfl
      · rw [slot]
        rfl
    have cell' : other.2.place.cell = sim.index insertion'.2 := by
      rcases kind' with chain | ⟨np, -, slot⟩
      · rw [chain]
        rfl
      · rw [slot]
        rfl
    rw [cell, cell'] at same
    have marked : sim.initBorder garbage (sim.index insertion.2) = true :=
      Sim.marked_of_moves partitioned (moves insertion member) (moves insertion' member')
        distinct same
    rw [cell, cell']
    refine ⟨marked, fun notSlot notSlot' => ⟨?_, ?_⟩⟩
    · rcases kind with chain | ⟨np, -, slot⟩
      · rw [chain]
        exact if_pos marked
      · rw [slot] at notSlot
        cases notSlot
    · rcases kind' with chain | ⟨np, -, slot⟩
      · rw [chain]
        exact if_pos (same ▸ marked)
      · rw [slot] at notSlot'
        cases notSlot'
  · exact Sim.slots_nodup _ _ _

/-- Two cells for two threads, with one particle in each. -/
def halves : Sim where
  perCell := 16
  perCell_pos := sixteen_pos
  nx := 2
  ny := 1
  nz := 1
  nx_pos := Nat.two_pos
  ny_pos := Nat.one_pos
  nz_pos := Nat.one_pos
  cnumPars _ := 1
  grids := [⟨0, 0, 0, 1, 1, 1⟩, ⟨1, 0, 0, 2, 1, 1⟩]
  cellsBase := 0
  sizeofCell := 16
  offsetofP := 0
  sizeofVec3 := 1
  sizeofVec3_pos := Nat.one_pos
  fits := by omega

/-- `InitSim` divides the two cells so. -/
def halvesInit : InitSim halves where
  lsb := 1
  round := id
  exactX := ⟨rfl, rfl⟩
  exactZ := ⟨rfl, rfl⟩
  grids := by decide +kernel
  assertX := by decide +kernel
  assertZ := by decide +kernel

/-- Both threads insert into the first cell, which is marked. -/
theorem writes_guarded_sample : halves.initBorder (fun _ => false) 0 = true := by
  have moves : ∀ insertion ∈ [((0 : Nat), (⟨0, 0, 0⟩ : Coord)), (1, ⟨0, 0, 0⟩)],
      halves.Moves insertion := by
    intro insertion member
    simp only [List.mem_cons, List.not_mem_nil, or_false] at member
    rcases member with rfl | rfl
    · exact ⟨by decide, ⟨0, 0, 0⟩, by decide, by decide, by decide⟩
    · exact ⟨by decide, ⟨1, 0, 0⟩, by decide, by decide, by decide⟩
  have guarded := (writes_guarded halvesInit fun _ => false).2.2 (fun _ => 0)
    [(0, ⟨0, 0, 0⟩), (1, ⟨0, 0, 0⟩)] moves
  exact (guarded.1 (0, ⟨.slot 0 0, none⟩) (by decide) (1, ⟨.slot 0 1, none⟩) (by decide)
    (by decide) (by decide)).1

/-- Two threads copy particles to the same cell without a lock. -/
theorem copies_unguarded : ∃ write other : Nat × Write,
    write ∈ halves.rebuildWrites (halves.initBorder fun _ => false) (fun _ => 0)
      [(0, ⟨0, 0, 0⟩), (1, ⟨0, 0, 0⟩)] ∧
    other ∈ halves.rebuildWrites (halves.initBorder fun _ => false) (fun _ => 0)
      [(0, ⟨0, 0, 0⟩), (1, ⟨0, 0, 0⟩)] ∧
    write.1 ≠ other.1 ∧ write.2.place.cell = other.2.place.cell ∧
    write.2.mutex = none ∧ other.2.mutex = none := by
  refine ⟨(0, ⟨.slot 0 0, none⟩), (1, ⟨.slot 0 1, none⟩), ?_, ?_, ?_⟩ <;> decide

end P3arsec.Fluidanimate
