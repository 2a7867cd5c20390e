import P3arsec.Fluidanimate.RebuildCorrect

/-!
# Rebuilding the particle grid with tasks

In the version with TBB each grid is cut along the z axis into `NUM_TASKS` slices, and a task
rebuilds the cells of a slice. A task takes the next slot of a cell in several accesses to
`last_cells`, `cnumPars` and the link of the last block. The mutex of a cell on a border is taken by
a declaration that is the statement of an `if`, so it is released before the first of these
accesses.
-/

namespace P3arsec.Fluidanimate

open P3arsec.Lib

/-- The cells of a grid that are given to a task. -/
def Grid.slice (grid : Grid) (numTasks pid : Nat) : Grid :=
  let block := (grid.ez - grid.sz) / numTasks
  let sz := grid.sz + block * pid
  { grid with sz := sz, ez := if pid = numTasks - 1 then grid.ez else sz + block }

/-- The simulation with the slices for the grids. Task `pid` of grid `tid` has the number
`tid * NUM_TASKS + pid`. -/
def Sim.sliced (sim : Sim) (numTasks : Nat) : Sim :=
  { sim with
    grids := sim.grids.flatMap fun grid => (List.range numTasks).map (grid.slice numTasks) }

namespace Mem

variable {α : Type}

/-- One of the nine assignments that copy a particle. -/
def copyField (mem : Mem α) (dest source : Slot) : Nat → Mem α
  | 0 => { mem with p := Function.update mem.p dest { mem.p dest with x := (mem.p source).x } }
  | 1 => { mem with p := Function.update mem.p dest { mem.p dest with y := (mem.p source).y } }
  | 2 => { mem with p := Function.update mem.p dest { mem.p dest with z := (mem.p source).z } }
  | 3 => { mem with hv := Function.update mem.hv dest { mem.hv dest with x := (mem.hv source).x } }
  | 4 => { mem with hv := Function.update mem.hv dest { mem.hv dest with y := (mem.hv source).y } }
  | 5 => { mem with hv := Function.update mem.hv dest { mem.hv dest with z := (mem.hv source).z } }
  | 6 => { mem with v := Function.update mem.v dest { mem.v dest with x := (mem.v source).x } }
  | 7 => { mem with v := Function.update mem.v dest { mem.v dest with y := (mem.v source).y } }
  | _ => { mem with v := Function.update mem.v dest { mem.v dest with z := (mem.v source).z } }

end Mem

/-- Where a task is in the body of the loop over the particles, with its variables. -/
inductive Phase where
  /-- Before a particle. -/
  | idle
  /-- Before the `if` with the lock. -/
  | lock (index : Nat)
  /-- At the end of that statement, where the lock is destroyed. -/
  | unlock (index : Nat)
  /-- Before `last_cells` is read. -/
  | last (index : Nat)
  /-- Before `cnumPars` is read. -/
  | count (index : Nat) (cell : Addr)
  /-- Before the test whether the last block is full. -/
  | test (index : Nat) (cell : Addr) (np : Nat)
  /-- Before a block is taken from the pool. -/
  | get (index : Nat) (cell : Addr) (np : Nat)
  /-- Before the block is linked to the last one. -/
  | link (index : Nat) (cell : Addr) (np : Nat) (block : Addr)
  /-- Before the link is followed. -/
  | follow (index : Nat) (cell : Addr) (np : Nat)
  /-- Before `last_cells` is set. -/
  | setLast (index : Nat) (cell : Addr) (np : Nat)
  /-- Before `cnumPars` is read for the increment. -/
  | load (index : Nat) (cell : Addr) (np : Nat)
  /-- Before the incremented value is stored. -/
  | store (index : Nat) (cell : Addr) (np value : Nat)
  /-- Some assignments of the copy have been made. -/
  | copy (fields : Nat)
  deriving DecidableEq

/-- The cell that is accessed, from the first read of the variables of the cell on. -/
def Phase.section : Phase → Option Nat
  | .count index _ => some index
  | .test index _ _ => some index
  | .get index _ _ => some index
  | .link index _ _ _ => some index
  | .follow index _ _ => some index
  | .setLast index _ _ => some index
  | .load index _ _ => some index
  | .store index _ _ _ => some index
  | _ => none

/-- A state of the tasks. -/
structure Tasks (α : Type) extends Rebuild α where
  /-- Where the tasks are. -/
  phase : Nat → Phase
  /-- The tasks that hold the mutexes of the cells. -/
  owner : Nat → Option Nat
  /-- The pools that have been used, with the tasks. -/
  used : List (Nat × Nat)

/-- What a step is free to choose: the block that a pool gives out, the new blocks that it takes
from the system before, and the link that it writes to a block. -/
structure Supply where
  /-- The block. -/
  block : Addr
  /-- The new blocks. -/
  fresh : List Addr
  /-- The link. -/
  link : Option Addr

namespace Tasks

variable {α : Type} [Sub α] [Div α] (sim : Sim) (numTasks : Nat) (border : Nat → Bool)
  (space : Space α)

/-- The begin, after `ClearParticlesMTWorker`. -/
def start (base : Nat) (store : Store α) : Tasks α where
  toRebuild := .start sim base store
  phase _ := .idle
  owner _ := none
  used := []

/-- A task goes on. -/
def goto (task : Nat) (phase : Phase) (t : Tasks α) : Tasks α :=
  { t with phase := Function.update t.phase task phase }

/-- The pools that have been used when a task returns a block that is not the head of the list. -/
def usePool (pool task index : Nat) (block : Addr) (t : Tasks α) : List (Nat × Nat) :=
  if block ≠ sim.cellAt index then (pool, task) :: t.used else t.used

/-- Before a particle: its cell is found, or the cell is left after the last one. The block at
which the task is then goes to `pools[tid]`. -/
def enter (task : Nat) (supply : Supply) (t : Tasks α) : Option (Tasks α) :=
  match t.walkers task with
  | ⟨source :: rest, cell2, j, none⟩ =>
    if j < sim.cnumPars (sim.index source) then
      match cell2 with
      | some cell2 =>
        some (t.goto task
          (.lock (sim.index (sim.cellOf space (t.mem.p (cell2, j % sim.perCell))))))
      | none => none
    else
      let walked := t.setWalker task (sim.walk rest)
      match cell2 with
      | some cell2 =>
        let pool := task / numTasks
        some { t with
          toRebuild := walked.returnOverflow sim pool (sim.index source) cell2 supply.link
          used := t.usePool sim pool task (sim.index source) cell2 }
      | none => some { t with toRebuild := walked }
  | _ => none

/-- After the last assignment of the copy the task moves on to the next particle. -/
def move (task : Nat) (supply : Supply) (t : Tasks α) : Option (Tasks α) :=
  match t.walkers task with
  | ⟨source :: rest, some cell2, j, some _⟩ =>
    if j % sim.perCell = sim.perCell - 1 then
      let walked := t.setWalker task ⟨source :: rest, t.mem.next cell2, j + 1, none⟩
      some ({ t with
        toRebuild := walked.returnOverflow sim task (sim.index source) cell2 supply.link
        used := t.usePool sim task task (sim.index source) cell2 }.goto task .idle)
    else
      some ({ t with
        toRebuild := t.setWalker task ⟨source :: rest, some cell2, j + 1, none⟩ }.goto task .idle)
  | _ => none

/-- A step of a task. -/
def step (task : Nat) (supply : Supply) (t : Tasks α) : Option (Tasks α) :=
  match t.phase task with
  | .idle => t.enter sim numTasks space task supply
  | .lock index =>
    if border index then
      if t.owner index = none then
        some ({ t with owner := Function.update t.owner index (some task) }.goto task
          (.unlock index))
      else none
    else some (t.goto task (.last index))
  | .unlock index =>
    some ({ t with owner := Function.update t.owner index none }.goto task (.last index))
  | .last index => some (t.goto task (.count index (t.lastCells index)))
  | .count index cell => some (t.goto task (.test index cell (t.cnumPars index)))
  | .test index cell np =>
    if np % sim.perCell = 0 ∧ t.cnumPars index ≠ 0 then some (t.goto task (.get index cell np))
    else some (t.goto task (.load index cell np))
  | .get index cell np => do
    let store ← t.toStore.getcell sim task supply.block supply.fresh
    some ({ t with toStore := store, used := (task, task) :: t.used }.goto task
      (.link index cell np supply.block))
  | .link index cell np block =>
    some ({ t with mem := t.mem.setNext cell (some block) }.goto task (.follow index cell np))
  | .follow index cell np => do
    let cell ← t.mem.next cell
    some (t.goto task (.setLast index cell np))
  | .setLast index cell np =>
    some ({ t with lastCells := Function.update t.lastCells index cell }.goto task
      (.load index cell np))
  | .load index cell np => some (t.goto task (.store index cell np (t.cnumPars index)))
  | .store index cell np value =>
    some ({ t with
      cnumPars := Function.update t.cnumPars index (value + 1)
      walkers := Function.update t.walkers task
        ((t.walkers task).setSlot (cell, np % sim.perCell)) }.goto task (.copy 0))
  | .copy fields =>
    if fields < 9 then
      match t.walkers task with
      | ⟨_, some cell2, j, some slot⟩ =>
        some ({ t with mem := t.mem.copyField slot (cell2, j % sim.perCell) fields }.goto task
          (.copy (fields + 1)))
      | _ => none
    else t.move sim task supply

/-- No other task is between its accesses to the cell whose variables the task begins to read. -/
def Alone (task : Nat) (t : Tasks α) : Prop :=
  ∀ index, t.phase task = .last index → ∀ other, other ≠ task →
    (t.phase other).section ≠ some index

/-- A task that returns a block when it leaves a cell has the number of the pool `pools[tid]`. -/
def OwnPool (task : Nat) (t : Tasks α) : Prop :=
  t.phase task = .idle → ∀ source rest cell2 j,
    t.walkers task = ⟨source :: rest, some cell2, j, none⟩ →
    sim.cnumPars (sim.index source) ≤ j → cell2 ≠ sim.cellAt (sim.index source) →
    task / numTasks = task

/-- The states of runs in which each step meets a condition. -/
def Reached (condition : Nat → Tasks α → Prop) (base : Nat) (store : Store α) : Tasks α → Prop :=
  Reachable (· = start sim base store) fun t next =>
    ∃ task supply, condition task t ∧ t.step sim numTasks border space task supply = some next

/-- All tasks have passed their cells. -/
def Finished (t : Tasks α) : Prop := ∀ task, (t.walkers task).cells = [] ∧ t.phase task = .idle

end Tasks

section Slices

/-- Neighbouring intervals. -/
theorem span_append {a b c : Nat} (low : a ≤ b) (high : b ≤ c) :
    span a b ++ span b c = span a c := by
  unfold span
  have start : b = a + 1 * (b - a) := by omega
  have size : c - a = (b - a) + (c - b) := by omega
  rw [size, ← List.range'_append, ← start]

/-- The slices of a grid have its cells, in its order. -/
theorem Grid.cells_slices (grid : Grid) {numTasks : Nat} (positive : 0 < numTasks) :
    ((List.range numTasks).map (grid.slice numTasks)).flatMap Grid.cells = grid.cells := by
  obtain ⟨last, rfl⟩ : ∃ last, numTasks = last + 1 := ⟨numTasks - 1, by omega⟩
  have below : (grid.ez - grid.sz) / (last + 1) * last ≤ grid.ez - grid.sz := by
    refine le_trans (Nat.mul_le_mul_left _ (Nat.le_succ last)) (Nat.div_mul_le_self _ _)
  have first : ∀ m ≤ last, ((List.range m).flatMap fun pid =>
      span (grid.slice (last + 1) pid).sz (grid.slice (last + 1) pid).ez) =
        span grid.sz (grid.sz + (grid.ez - grid.sz) / (last + 1) * m) := by
    intro m bound
    induction m with
    | zero => simp [span]
    | succ m ih =>
      have inner : (grid.slice (last + 1) m).ez =
          grid.sz + (grid.ez - grid.sz) / (last + 1) * m +
            (grid.ez - grid.sz) / (last + 1) := by
        unfold Grid.slice
        dsimp only
        rw [if_neg (by omega)]
      rw [List.range_succ, List.flatMap_append, ih (by omega), List.flatMap_singleton, inner]
      refine (span_append (Nat.le_add_right _ _) (Nat.le_add_right _ _)).trans ?_
      rw [Nat.mul_succ, add_assoc]
  have all : ((List.range (last + 1)).flatMap fun pid =>
      span (grid.slice (last + 1) pid).sz (grid.slice (last + 1) pid).ez) =
        span grid.sz grid.ez := by
    have final : (grid.slice (last + 1) last).ez = grid.ez := by
      unfold Grid.slice
      dsimp only
      rw [if_pos (by omega)]
    rw [List.range_succ, List.flatMap_append, first last le_rfl, List.flatMap_singleton, final]
    show span grid.sz (grid.sz + (grid.ez - grid.sz) / (last + 1) * last) ++
      span (grid.sz + (grid.ez - grid.sz) / (last + 1) * last) grid.ez = _
    by_cases some : grid.sz ≤ grid.ez
    · exact span_append (Nat.le_add_right _ _) (by omega)
    · have zero : grid.ez - grid.sz = 0 := by omega
      simp [span, zero]
  rw [List.flatMap_map]
  unfold Grid.cells
  rw [← all, List.flatMap_assoc]
  rfl

/-- The slices are the domain, too. -/
theorem Sim.Partitioned.sliced {sim : Sim} (partitioned : sim.Partitioned) {numTasks : Nat}
    (positive : 0 < numTasks) : (sim.sliced numTasks).Partitioned := by
  have same : (sim.sliced numTasks).grids.flatMap Grid.cells = sim.grids.flatMap Grid.cells := by
    show (sim.grids.flatMap fun grid =>
      (List.range numTasks).map (grid.slice numTasks)).flatMap Grid.cells = _
    rw [List.flatMap_assoc]
    exact List.flatMap_congr fun grid _ => grid.cells_slices positive
  unfold Sim.Partitioned
  rw [same]
  exact partitioned

end Slices

section Fields

variable {α : Type}

/-- The nine numbers of a particle. -/
def Particle.field (particle : Particle α) : Nat → α
  | 0 => particle.p.x
  | 1 => particle.p.y
  | 2 => particle.p.z
  | 3 => particle.hv.x
  | 4 => particle.hv.y
  | 5 => particle.hv.z
  | 6 => particle.v.x
  | 7 => particle.v.y
  | _ => particle.v.z

/-- A particle is its nine fields. -/
theorem Particle.eq_of_fields {particle other : Particle α}
    (same : ∀ i < 9, particle.field i = other.field i) : particle = other := by
  obtain ⟨⟨_, _, _⟩, ⟨_, _, _⟩, ⟨_, _, _⟩⟩ := particle
  obtain ⟨⟨_, _, _⟩, ⟨_, _, _⟩, ⟨_, _, _⟩⟩ := other
  have zero := same 0 (by decide)
  have one := same 1 (by decide)
  have two := same 2 (by decide)
  have three := same 3 (by decide)
  have four := same 4 (by decide)
  have five := same 5 (by decide)
  have six := same 6 (by decide)
  have seven := same 7 (by decide)
  have eight := same 8 (by decide)
  simp only [Particle.field] at zero one two three four five six seven eight
  subst zero one two three four five six seven eight
  rfl

variable (mem : Mem α) {dest source : Slot}

/-- The other particles are kept. -/
theorem Mem.copyField_of_ne {other : Slot} (apart : other ≠ dest) (field : Nat) :
    (mem.copyField dest source field).particle other = mem.particle other := by
  unfold Mem.copyField
  split <;> simp [Mem.particle, Function.update_of_ne apart]

/-- One field is copied. -/
theorem Mem.copyField_self {field : Nat} (known : field < 9) {i : Nat} (below : i < 9) :
    ((mem.copyField dest source field).particle dest).field i =
      if i = field then (mem.particle source).field field else (mem.particle dest).field i := by
  interval_cases field <;> interval_cases i <;> simp [Mem.copyField, Mem.particle, Particle.field]

/-- A copy of a field keeps the links. -/
@[simp] theorem Mem.next_copyField (field : Nat) :
    (mem.copyField dest source field).next = mem.next := by
  unfold Mem.copyField
  split <;> rfl

/-- A copy of a field keeps the accelerations. -/
@[simp] theorem Mem.a_copyField (field : Nat) : (mem.copyField dest source field).a = mem.a := by
  unfold Mem.copyField
  split <;> rfl

/-- A copy of a field keeps the densities. -/
@[simp] theorem Mem.density_copyField (field : Nat) :
    (mem.copyField dest source field).density = mem.density := by
  unfold Mem.copyField
  split <;> rfl

end Fields

end P3arsec.Fluidanimate
