import P3arsec.Fluidanimate.Border

/-!
# The choice of the partition

`InitSim` takes the position of the one bit of `threadnum`, divides it between the two axes, and
cuts each axis at the rounded multiples of its real quotient. With exact arithmetic two cuts are at
least a cell apart as soon as an axis has a cell for each division, so that no assertion fails.
-/

namespace P3arsec.Fluidanimate

open P3arsec.Lib

/-- The loop of `hmgweight`: the weight and the position of the lowest bit. -/
def hmgweightLoop (x weight count : Nat) (lsb : Int) : Nat × Int :=
  if x = 0 then (weight, lsb)
  else if x &&& 1 = 1 then
    hmgweightLoop (x >>> 1) (weight + 1) (count + 1) (if lsb = -1 then count else lsb)
  else hmgweightLoop (x >>> 1) weight (count + 1) lsb
termination_by x
decreasing_by all_goals rw [Nat.shiftRight_one]; omega

/-- `hmgweight`. -/
def hmgweight (x : Nat) : Nat × Int := hmgweightLoop x 0 0 (-1)

/-- `XDIVS` and `ZDIVS`, none where the program exits. The product of the divisions is an `int`. -/
def divisions (threadnum : Nat) : Option (Nat × Nat) :=
  let (weight, lsb) := hmgweight threadnum
  if weight ≠ 1 then none
  else
    let zdivs := 1 <<< (lsb / 2).toNat
    let xdivs := if zdivs * zdivs ≠ threadnum then zdivs * 2 else zdivs
    if xdivs * zdivs ≥ 2 ^ 31 ∨ xdivs * zdivs ≠ threadnum then none else some (xdivs, zdivs)

/-- The loop over `j`, from a row and the end of the row before it. -/
def rowLoop (round : ℚ → ℚ) (ny nz zdivs sx ex : Nat) : Nat → Nat → Nat → Option (List Grid)
  | 0, _, _ => some []
  | rows + 1, j, sz => do
    let ez := bound round nz zdivs (j + 1)
    if sz < ez then
      let grids ← rowLoop round ny nz zdivs sx ex rows (j + 1) ez
      return ⟨sx, 0, sz, ex, ny, ez⟩ :: grids
    else none

/-- The loop over `i`, from a column and the end of the column before it. -/
def columnLoop (round : ℚ → ℚ) (nx ny nz xdivs zdivs : Nat) :
    Nat → Nat → Nat → Option (List Grid)
  | 0, _, _ => some []
  | columns + 1, i, sx => do
    let ex := bound round nx xdivs (i + 1)
    if sx < ex then
      let column ← rowLoop round ny nz zdivs sx ex zdivs 0 0
      let grids ← columnLoop round nx ny nz xdivs zdivs columns (i + 1) ex
      return column ++ grids
    else none

/-- The part of `InitSim` that makes the grids, none where it exits or an assertion fails. -/
def makeGrids (round : ℚ → ℚ) (threadnum nx ny nz : Nat) : Option (List Grid) := do
  let (xdivs, zdivs) ← divisions threadnum
  if nx ≥ xdivs ∧ nz ≥ zdivs then columnLoop round nx ny nz xdivs zdivs xdivs 0 0 else none

/-- The loop finds the one bit of a power of two. -/
theorem hmgweightLoop_pow (k weight count : Nat) : hmgweightLoop (2 ^ k) weight count (-1) =
    (weight + 1, ((count + k : Nat) : Int)) := by
  induction k generalizing count with
  | zero =>
    rw [hmgweightLoop, if_neg (by decide), if_pos (by decide), if_pos rfl, hmgweightLoop,
      if_pos (by decide)]
    rfl
  | succ k ih =>
    have positive : 0 < 2 ^ k := Nat.two_pow_pos k
    have even : (2 ^ (k + 1)) &&& 1 = 0 := by
      rw [Nat.and_one_is_mod, Nat.pow_succ, Nat.mul_mod_left]
    have half : (2 ^ (k + 1)) >>> 1 = 2 ^ k := by
      rw [Nat.shiftRight_one, Nat.pow_succ, Nat.mul_div_cancel _ Nat.two_pos]
    rw [hmgweightLoop, if_neg (by rw [Nat.pow_succ]; omega), if_neg (by rw [even]; decide),
      half, ih]
    congr 2
    omega

/-- A power of two below 2^31 is divided as the other modules assume. -/
theorem divisions_pow {k : Nat} (small : 2 ^ k < 2 ^ 31) :
    divisions (2 ^ k) = some (xdivs k, zdivs k) := by
  have product := xdivs_mul_zdivs k
  have found : hmgweight (2 ^ k) = (1, (k : Int)) := by
    rw [hmgweight, hmgweightLoop_pow, Nat.zero_add, Nat.zero_add]
  have half : 1 <<< ((k : Int) / 2).toNat = zdivs k := by
    rw [Nat.one_shiftLeft, zdivs]
    rfl
  have width : (if zdivs k * zdivs k ≠ 2 ^ k then zdivs k * 2 else zdivs k) = xdivs k := by
    rw [xdivs, ite_not]
    rfl
  rw [divisions, found]
  dsimp only
  rw [if_neg (by decide), half, width, product, if_neg (by omega)]

/-- A cut is the rounded multiple of the quotient. -/
theorem bound_floor (n divs i : Nat) :
    (bound id n divs i : ℤ) = ⌊(n : ℚ) / divs * i + 1 / 2⌋ := by
  have positive : (0 : ℚ) ≤ n / divs * i + 1 / 2 := by positivity
  rw [bound]
  split
  · rename_i first
    rw [first]
    norm_num
  · exact Int.toNat_of_nonneg (Int.floor_nonneg.mpr positive)

/-- Two cuts are at least a cell apart where there is a cell for each division. -/
theorem bound_lt {n divs : Nat} (some : 0 < divs) (wide : divs ≤ n) (i : Nat) :
    bound id n divs i < bound id n divs (i + 1) := by
  have one : (1 : ℚ) ≤ n / divs := by
    rw [le_div_iff₀ (by exact_mod_cast some), one_mul]
    exact_mod_cast wide
  have apart : (n : ℚ) / divs * i + 1 / 2 + 1 ≤ n / divs * (i + 1 : Nat) + 1 / 2 := by
    push_cast
    linarith
  have cuts := Int.floor_mono apart
  rw [Int.floor_add_one, ← bound_floor, ← bound_floor] at cuts
  omega

section Loops

variable {nx ny nz xdivs zdivs : Nat}

/-- The loop over `j` makes the grids between the cuts. -/
theorem rowLoop_eq (ny : Nat) (some : 0 < zdivs) (deep : zdivs ≤ nz) (sx ex rows j : Nat) :
    rowLoop id ny nz zdivs sx ex rows j (bound id nz zdivs j) =
      Option.some ((List.range' j rows).map fun j =>
        ⟨sx, 0, bound id nz zdivs j, ex, ny, bound id nz zdivs (j + 1)⟩) := by
  induction rows generalizing j with
  | zero => rfl
  | succ rows ih =>
    rw [rowLoop, if_pos (bound_lt some deep j), ih (j + 1)]
    rfl

/-- The loop over `i` makes the columns between the cuts. -/
theorem columnLoop_eq (ny : Nat) (someX : 0 < xdivs) (wide : xdivs ≤ nx) (someZ : 0 < zdivs)
    (deep : zdivs ≤ nz) (columns i : Nat) :
    columnLoop id nx ny nz xdivs zdivs columns i (bound id nx xdivs i) =
      some ((List.range' i columns).flatMap fun i => (List.range zdivs).map fun j =>
        ⟨bound id nx xdivs i, 0, bound id nz zdivs j, bound id nx xdivs (i + 1), ny,
          bound id nz zdivs (j + 1)⟩) := by
  induction columns generalizing i with
  | zero => rfl
  | succ columns ih =>
    have rows := rowLoop_eq ny someZ deep (bound id nx xdivs i) (bound id nx xdivs (i + 1)) zdivs 0
    rw [bound_zero] at rows
    rw [columnLoop, if_pos (bound_lt someX wide i), rows, ih (i + 1), List.range_eq_range']
    rfl

end Loops

/-- No assertion fails, and the grids are those between the cuts. -/
theorem makeGrids_eq (sim : Sim) {k : Nat} (small : 2 ^ k < 2 ^ 31) (wide : xdivs k ≤ sim.nx)
    (deep : zdivs k ≤ sim.nz) :
    makeGrids id (2 ^ k) sim.nx sim.ny sim.nz = some (sim.initGrids id k) := by
  have columns := columnLoop_eq sim.ny (xdivs_pos k) wide (zdivs_pos k) deep (xdivs k) 0
  rw [bound_zero, ← List.range_eq_range'] at columns
  rw [makeGrids, divisions_pow small]
  show (if _ then _ else none) = _
  rw [if_pos ⟨wide, deep⟩, columns]
  rfl

/-- The simulation with the grids between the cuts. -/
def exactInit (sim : Sim) {k : Nat} (wide : xdivs k ≤ sim.nx) (deep : zdivs k ≤ sim.nz) :
    InitSim { sim with grids := sim.initGrids id k } where
  lsb := k
  round := id
  exactX := ⟨rfl, rfl⟩
  exactZ := ⟨rfl, rfl⟩
  grids := rfl
  assertX i _ := bound_lt (xdivs_pos k) wide i
  assertZ j _ := bound_lt (zdivs_pos k) deep j

/-- With a power of two threads and a cell for each division the divisions make as many grids as
there are threads; no grid is empty, no two share a cell, and together they have each cell of the
domain once. -/
theorem partition_correct (sim : Sim) {threadnum k : Nat} (power : threadnum = 2 ^ k)
    (small : threadnum < 2 ^ 31) (wide : xdivs k ≤ sim.nx) (deep : zdivs k ≤ sim.nz) :
    ∃ grids, divisions threadnum = some (xdivs k, zdivs k) ∧ xdivs k * zdivs k = threadnum ∧
      makeGrids id threadnum sim.nx sim.ny sim.nz = some grids ∧ grids.length = threadnum ∧
      (∀ grid ∈ grids, grid.sx < grid.ex ∧ grid.sy < grid.ey ∧ grid.sz < grid.ez) ∧
      (grids.Pairwise fun grid other => ∀ cell ∈ grid.cells, cell ∉ other.cells) ∧
      { sim with grids := grids }.Partitioned := by
  subst power
  let init := exactInit sim wide deep
  refine ⟨sim.initGrids id k, divisions_pow small, xdivs_mul_zdivs k,
    makeGrids_eq sim small wide deep, init.length_grids, ?_, ?_, init.partitioned⟩
  · intro grid member
    obtain ⟨i, -, inner⟩ := List.mem_flatMap.mp member
    obtain ⟨j, -, rfl⟩ := List.mem_map.mp inner
    exact ⟨bound_lt (xdivs_pos k) wide i, sim.ny_pos, bound_lt (zdivs_pos k) deep j⟩
  · exact (List.nodup_flatMap.mp init.partitioned.nodup).2

/-- Two threads divide two cells between them. -/
theorem partition_correct_sample : ∃ grids, divisions 2 = some (2, 1) ∧
    makeGrids id 2 2 1 1 = some grids ∧ grids.length = 2 ∧
    { halves with grids := grids }.Partitioned := by
  obtain ⟨grids, divided, -, made, length, -, -, partitioned⟩ :=
    @partition_correct halves 2 1 rfl (by decide) (by decide) (by decide)
  exact ⟨grids, divided, made, length, partitioned⟩

end P3arsec.Fluidanimate
