import P3arsec.Fluidanimate.Collisions

/-!
# The walls as mirrors

`processCollisions2` of the serial version walks the six walls one after the other and reflects the
particles that are beyond a wall. On the upper y wall the step to the next block of a chain stands
inside the test, so that the walk goes on only behind a last particle that is beyond the wall.
`processCollisions2MT` of the FastFlow version walks each cell once and compares the position that a
particle has at the begin with both walls of an axis, where the serial version compares the upper
wall with the position that the lower one has left.
-/

namespace P3arsec.Fluidanimate

open P3arsec.Lib

variable {α : Type}

/-- The corners of the domain. -/
structure Box (α : Type) [LT α] where
  /-- Lower corner. -/
  domainMin : Vec3 α
  /-- Upper corner. -/
  domainMax : Vec3 α
  /-- The corners lie apart on the x axis. -/
  ltX : domainMin.x < domainMax.x
  /-- The corners lie apart on the y axis. -/
  ltY : domainMin.y < domainMax.y
  /-- The corners lie apart on the z axis. -/
  ltZ : domainMin.z < domainMax.z

/-- What a particle has along one axis. -/
@[ext] structure Axis (α : Type) where
  /-- Its coordinate of `p`. -/
  pos : α
  /-- Its coordinate of `v`. -/
  v : α
  /-- Its coordinate of `hv`. -/
  hv : α

/-- What a particle has along the three axes. -/
@[ext] structure Motion (α : Type) where
  /-- Along the x axis. -/
  x : Axis α
  /-- Along the y axis. -/
  y : Axis α
  /-- Along the z axis. -/
  z : Axis α

namespace Mem

/-- The motion of the particle in a slot. -/
def motion (mem : Mem α) (slot : Slot) : Motion α where
  x := ⟨(mem.p slot).x, (mem.v slot).x, (mem.hv slot).x⟩
  y := ⟨(mem.p slot).y, (mem.v slot).y, (mem.hv slot).y⟩
  z := ⟨(mem.p slot).z, (mem.v slot).z, (mem.hv slot).z⟩

/-- The memory with other motions. -/
def withMotion (mem : Mem α) (motion : Slot → Motion α) : Mem α :=
  { mem with
    p := fun slot => ⟨(motion slot).x.pos, (motion slot).y.pos, (motion slot).z.pos⟩
    v := fun slot => ⟨(motion slot).x.v, (motion slot).y.v, (motion slot).z.v⟩
    hv := fun slot => ⟨(motion slot).x.hv, (motion slot).y.hv, (motion slot).z.hv⟩ }

/-- The motions that were set. -/
@[simp] theorem motion_withMotion (mem : Mem α) (motion : Slot → Motion α) :
    (mem.withMotion motion).motion = motion := rfl

/-- The memory with the motion in one slot changed. -/
def changeAt (mem : Mem α) (slot : Slot) (change : Motion α → Motion α) : Mem α :=
  mem.withMotion (modifyAt mem.motion slot change)

end Mem

/-- `for(j = 0; j < np; ++j)` over the particles of a cell, from iteration `j` on with a number of
iterations left, with the slots that it visits. Behind the last slot of a block the pointer moves to
the next one where the particle lets it. -/
def walk (perCell : Nat) (steps : Motion α → Bool) (change : Motion α → Motion α) :
    Nat → Nat → Option Addr → Mem α → Option (Mem α × List Slot)
  | 0, _, _, mem => some (mem, [])
  | left + 1, j, pointer, mem => do
    let cell ← pointer
    let ji := (cell, j % perCell)
    let pointer :=
      if steps (mem.motion ji) && j % perCell == perCell - 1 then mem.next cell else some cell
    let (mem, visited) ← walk perCell steps change left (j + 1) pointer (mem.changeAt ji change)
    return (mem, ji :: visited)

/-- A change of the motions in some slots, one after the other. -/
def changeAll (change : Motion α → Motion α) (slots : List Slot) (motion : Slot → Motion α) :
    Slot → Motion α :=
  slots.foldl (fun motion slot => modifyAt motion slot change) motion

namespace Chains

variable {sim : Sim} {next : Addr → Option Addr} (chains : Chains sim next)

/-- The slots of some particles of a cell, in order. -/
def slots (cell : Coord) (j left : Nat) : List Slot :=
  (List.range' j left).map fun j => chains.slot (cell, j)

/-- From a particle on, each one that is the last of its block lets the pointer move while there are
more particles. -/
def Moves (steps : Motion α → Bool) (cell : Coord) (first : Nat) (motion : Slot → Motion α) :
    Prop :=
  ∀ j, first ≤ j → j + 1 < sim.cnumPars (sim.index cell) → j % sim.perCell = sim.perCell - 1 →
    steps (motion (chains.slot (cell, j))) = true

variable {steps : Motion α → Bool} {change : Motion α → Motion α} {cell : Coord}

/-- The pointer is at the block of the next particle when the current one lets it move. -/
theorem pointer_succ (inside : sim.Inside cell) {link : Addr → Option Addr} (links : link = next)
    {j : Nat} {goes : Bool} (more : j + 1 < sim.cnumPars (sim.index cell))
    (moves : j % sim.perCell = sim.perCell - 1 → goes = true) :
    (if goes && j % sim.perCell == sim.perCell - 1 then link (chains.block cell (j / sim.perCell))
      else some (chains.block cell (j / sim.perCell))) =
        some (chains.block cell ((j + 1) / sim.perCell)) := by
  rw [block_succ sim.perCell_pos, links]
  by_cases last : j % sim.perCell = sim.perCell - 1
  · rw [moves last, if_pos last, if_pos (by simp [last]), chains.linked_of_last inside last more]
  · rw [if_neg last, if_neg (by simp [last])]

/-- A change of one particle leaves the motions of those behind it. -/
theorem moves_changeAt (inside : sim.Inside cell) {j : Nat} {mem : Mem α}
    (here : j < sim.cnumPars (sim.index cell)) :
    chains.Moves steps cell (j + 1) (mem.changeAt (chains.slot (cell, j)) change).motion ↔
      chains.Moves steps cell (j + 1) mem.motion := by
  unfold Moves
  refine forall_congr' fun i => forall₃_congr fun behind more last => ?_
  have apart : chains.slot (cell, i) ≠ chains.slot (cell, j) := by
    intro same
    have equal := chains.slot_injective ⟨inside, Nat.lt_of_succ_lt more⟩ ⟨inside, here⟩ same
    have numbers := congrArg Prod.snd equal
    dsimp only at numbers
    omega
  rw [Mem.changeAt, Mem.motion_withMotion, modifyAt_ne _ _ apart]

/-- A walk whose pointer moves behind every block visits each particle once. -/
theorem walk_eq (change : Motion α → Motion α) (inside : sim.Inside cell) (left j : Nat)
    {pointer : Option Addr} {mem : Mem α} (links : mem.next = next)
    (total : j + left = sim.cnumPars (sim.index cell))
    (current : 0 < left → pointer = some (chains.block cell (j / sim.perCell)))
    (moves : chains.Moves steps cell j mem.motion) :
    walk sim.perCell steps change left j pointer mem =
      some (mem.withMotion (changeAll change (chains.slots cell j left) mem.motion),
        chains.slots cell j left) := by
  induction left generalizing j pointer mem with
  | zero => rfl
  | succ left ih =>
    obtain rfl := current (Nat.succ_pos left)
    have kept : (mem.changeAt (chains.slot (cell, j)) change).next = next := links
    have rest := ih (j + 1) kept (by omega)
      (fun some => chains.pointer_succ inside links (by omega) fun last =>
        moves j le_rfl (by omega) last)
      ((chains.moves_changeAt inside (by omega)).mpr fun i behind => moves i (by omega))
    exact Option.bind_eq_some_iff.mpr ⟨_, rest, rfl⟩

/-- The first slot that a walk visits. -/
theorem walk_head {perCell left j block : Nat} {mem after : Mem α} {visited : List Slot}
    (ran : walk perCell steps change (left + 1) j (some block) mem = some (after, visited)) :
    ∃ rest, visited = (block, j % perCell) :: rest := by
  obtain ⟨result, -, same⟩ := Option.bind_eq_some_iff.mp ran
  exact ⟨result.2, (congrArg Prod.snd (Option.some.inj same)).symm⟩

/-- A walk visits as many slots as it has iterations. -/
theorem walk_length {perCell left j : Nat} {mem after : Mem α}
    {pointer : Option Addr} {visited : List Slot}
    (ran : walk perCell steps change left j pointer mem = some (after, visited)) :
    visited.length = left := by
  induction left generalizing j pointer mem visited with
  | zero =>
    obtain ⟨-, rfl⟩ := Prod.mk.inj (Option.some.inj ran)
    rfl
  | succ left ih =>
    cases pointer with
    | none => exact nomatch ran
    | some block =>
      obtain ⟨⟨after', visited'⟩, rest, same⟩ := Option.bind_eq_some_iff.mp ran
      obtain ⟨rfl, rfl⟩ := Prod.mk.inj (Option.some.inj same)
      exact congrArg Nat.succ (ih rest)

/-- A walk that visits each particle once has moved its pointer behind every block. -/
theorem moves_of_walk (inside : sim.Inside cell) (left j : Nat) {pointer : Option Addr}
    {mem after : Mem α} (links : mem.next = next)
    (total : j + left = sim.cnumPars (sim.index cell))
    (current : 0 < left → pointer = some (chains.block cell (j / sim.perCell)))
    (ran : walk sim.perCell steps change left j pointer mem =
      some (after, chains.slots cell j left)) : chains.Moves steps cell j mem.motion := by
  induction left generalizing j pointer mem with
  | zero => exact fun i behind more => absurd more (by omega)
  | succ left ih =>
    obtain rfl := current (Nat.succ_pos left)
    obtain ⟨⟨after', visited⟩, rest, same⟩ := Option.bind_eq_some_iff.mp ran
    obtain ⟨rfl, trace⟩ := Prod.mk.inj (Option.some.inj same)
    obtain rfl : visited = chains.slots cell (j + 1) left := (List.cons.inj trace).2
    have own : j + 1 < sim.cnumPars (sim.index cell) → j % sim.perCell = sim.perCell - 1 →
        steps (mem.motion (chains.slot (cell, j))) = true := by
      intro more last
      by_contra stays
      -- The pointer is still at the block that it has visited.
      obtain ⟨left, rfl⟩ : ∃ others, left = others + 1 := ⟨left - 1, by omega⟩
      have here : (chains.block cell (j / sim.perCell), j % sim.perCell) =
          chains.slot (cell, j) := rfl
      rw [here, Bool.eq_false_iff.mpr stays] at rest
      obtain ⟨others, head⟩ := walk_head rest
      have same := congrArg Prod.fst (List.cons.inj head).1
      have whole : j + 1 = (j / sim.perCell + 1) * sim.perCell := by
        have division := Nat.div_add_mod' j sim.perCell
        have positive := sim.perCell_pos
        rw [Nat.succ_mul]
        omega
      have later : chains.block cell ((j + 1) / sim.perCell) =
          chains.block cell (j / sim.perCell) := same
      rw [block_succ sim.perCell_pos, if_pos last] at later
      have numbers := (chains.block_injective inside inside (by rwa [← whole])
        (block_used (show sim.Holds (cell, j) from ⟨inside, Nat.lt_of_succ_lt more⟩)) later).2
      exact absurd numbers (Nat.succ_ne_self _)
    refine fun i behind more last => ?_
    rcases Nat.eq_or_lt_of_le behind with rfl | later
    · exact own more last
    · have kept : (mem.changeAt (chains.slot (cell, j)) change).next = next := links
      have moved := ih (j + 1) kept (by omega)
        (fun some => chains.pointer_succ inside links (by omega) (own (by omega))) rest
      exact (chains.moves_changeAt inside (by omega)).mp moved i later more last

/-- The slots of the particles of a cell, in order. -/
def cellSlots (cell : Coord) : List Slot := chains.slots cell 0 (sim.cnumPars (sim.index cell))

/-- A change of the particles of a cell changes each of them once. -/
theorem changeAll_cellSlots (inside : sim.Inside cell) (motion : Slot → Motion α)
    {particle : ParticleId} (holds : sim.Holds particle) :
    changeAll change (chains.cellSlots cell) motion (chains.slot particle) =
      if particle.1 = cell then change (motion (chains.slot particle))
      else motion (chains.slot particle) := by
  unfold changeAll cellSlots slots
  rw [List.foldl_map, foldl_modifyAt _ (fun j => chains.slot (cell, j)) fun _ => change]
  by_cases here : particle.1 = cell
  · subst here
    have bound : particle.2 ∈ List.range' 0 (sim.cnumPars (sim.index particle.1)) := by
      simpa using holds.2
    rw [if_pos rfl, filter_eq_singleton List.nodup_range' bound]
    · rfl
    · intro j member
      have held : sim.Holds (particle.1, j) := ⟨holds.1, by simpa using member⟩
      rw [decide_eq_true_iff]
      constructor
      · exact fun same => congrArg Prod.snd (chains.slot_injective held holds same)
      · exact fun same => by rw [same]
  · have nothing : (List.range' 0 (sim.cnumPars (sim.index cell))).filter
        (fun j => chains.slot (cell, j) = chains.slot particle) = [] := by
      refine List.filter_eq_nil_iff.mpr fun j member => ?_
      have held : sim.Holds (cell, j) := ⟨inside, by simpa using member⟩
      rw [decide_eq_true_iff]
      exact fun same => here (congrArg Prod.fst (chains.slot_injective held holds same)).symm
    rw [if_neg here, nothing]
    rfl

/-- The loop over the particles of a cell that changes each motion. -/
theorem forCell_change (inside : sim.Inside cell) (change : Motion α → Motion α) {mem : Mem α}
    (links : mem.next = next) (motion : Slot → Motion α) :
    sim.forCell (fun block j mem => some (mem.changeAt (block, j % sim.perCell) change))
        (sim.index cell) (mem.withMotion motion) =
      some (mem.withMotion (changeAll change (chains.cellSlots cell) motion)) := by
  have kept : (mem.withMotion motion).next = next := links
  have pure : sim.forCell (fun block j mem =>
        some (mem.changeAt (block, j % sim.perCell) change)) (sim.index cell)
          (mem.withMotion motion) =
      some ((List.range (sim.cnumPars (sim.index cell))).foldl
        (fun mem j => mem.changeAt (chains.slot (cell, j)) change) (mem.withMotion motion)) :=
    chains.forCell_eq_foldl inside (fun _ _ _ => rfl) (fun _ _ => by rfl) _ kept
  rw [pure, List.range_eq_range']
  unfold changeAll cellSlots slots
  rw [List.foldl_map]
  clear pure kept
  generalize List.range' 0 (sim.cnumPars (sim.index cell)) = js
  induction js generalizing motion with
  | nil => rfl
  | cons j js ih => exact ih _

/-- A change of the particles of some cells changes each of them once. -/
theorem foldl_cells (change : Coord → Motion α → Motion α) {cells : List Coord}
    (nodup : cells.Nodup) (inside : ∀ cell ∈ cells, sim.Inside cell) (motion : Slot → Motion α)
    {particle : ParticleId} (holds : sim.Holds particle) :
    cells.foldl (fun motion cell => changeAll (change cell) (chains.cellSlots cell) motion) motion
        (chains.slot particle) =
      if particle.1 ∈ cells then change particle.1 (motion (chains.slot particle))
      else motion (chains.slot particle) := by
  induction cells generalizing motion with
  | nil => rfl
  | cons cell cells ih =>
    obtain ⟨fresh, nodup⟩ := List.nodup_cons.mp nodup
    rw [List.foldl_cons,
      ih nodup (fun other member => inside other (List.mem_cons_of_mem _ member)),
      chains.changeAll_cellSlots (inside cell List.mem_cons_self) motion holds]
    by_cases here : particle.1 = cell
    · rw [if_pos here, here, if_neg fresh, if_pos List.mem_cons_self]
    · rw [if_neg here]
      simp only [List.mem_cons, here, false_or]

end Chains

variable [Field α] [LinearOrder α]

namespace Axis

/-- `diff = pos - domainMin`, and the reflection when it is below zero. -/
def bounceMin (domainMin pos : α) (axis : Axis α) : Axis α :=
  let diff := pos - domainMin
  if diff < 0 then ⟨domainMin - diff, -axis.v, -axis.hv⟩ else axis

/-- `diff = domainMax - pos`, and the reflection when it is below zero. -/
def bounceMax (domainMax pos : α) (axis : Axis α) : Axis α :=
  let diff := domainMax - pos
  if diff < 0 then ⟨domainMax + diff, -axis.v, -axis.hv⟩ else axis

end Axis

namespace Box

variable (box : Box α)

/-- The reflection of a particle that is beyond a wall. -/
def bounce (wall : Wall) (motion : Motion α) : Motion α :=
  match wall with
  | .minX => { motion with x := motion.x.bounceMin box.domainMin.x motion.x.pos }
  | .maxX => { motion with x := motion.x.bounceMax box.domainMax.x motion.x.pos }
  | .minY => { motion with y := motion.y.bounceMin box.domainMin.y motion.y.pos }
  | .maxY => { motion with y := motion.y.bounceMax box.domainMax.y motion.y.pos }
  | .minZ => { motion with z := motion.z.bounceMin box.domainMin.z motion.z.pos }
  | .maxZ => { motion with z := motion.z.bounceMax box.domainMax.z motion.z.pos }

/-- The particle lets the pointer move to the next block. Along the upper y wall the step stands
behind the test for the reflection. -/
def steps (wall : Wall) (motion : Motion α) : Bool :=
  match wall with
  | .maxY => decide (box.domainMax.y - motion.y.pos < 0)
  | _ => true

end Box

namespace Sim

variable (sim : Sim) (box : Box α)

/-- The loop over the particles of a cell along a wall. -/
def bounceCell (wall : Wall) (cell : Coord) (mem : Mem α) : Option (Mem α × List Slot) :=
  walk sim.perCell (box.steps wall) (box.bounce wall) (sim.cnumPars (sim.index cell)) 0
    (some (sim.cellAt (sim.index cell))) mem

/-- The loops over cells of walls, with the slots that they visit. -/
def bounceCells : List (Wall × Coord) → Mem α → Option (Mem α × List (Wall × Slot))
  | [], mem => some (mem, [])
  | (wall, cell) :: rest, mem => do
    let (mem, visited) ← sim.bounceCell box wall cell mem
    let (mem, others) ← bounceCells rest mem
    return (mem, visited.map (wall, ·) ++ others)

/-- The cells of walls in the order of the loops. -/
def along (walls : List Wall) : List (Wall × Coord) :=
  walls.flatMap fun wall => (sim.wallCells wall).map (wall, ·)

/-- `ProcessCollisions2` of the serial version, with the slots that it visits. -/
def processCollisions2 (mem : Mem α) : Option (Mem α × List (Wall × Slot)) :=
  sim.bounceCells box (sim.along walls) mem

/-- The loops stay in the domain. -/
theorem along_inside {walls : List Wall} : ∀ item ∈ sim.along walls, sim.Inside item.2 := by
  intro item member
  obtain ⟨wall, -, member⟩ := List.mem_flatMap.mp member
  obtain ⟨cell, onWall, rfl⟩ := List.mem_map.mp member
  exact (sim.mem_wallCells.mp onWall).1

/-- The tests of `ProcessCollisions2MT`, which compare the position at the begin. -/
def collide2 (cell : Coord) (motion : Motion α) : Motion α where
  x :=
    let x := if cell.ix = 0 then motion.x.bounceMin box.domainMin.x motion.x.pos else motion.x
    if cell.ix = sim.nx - 1 then x.bounceMax box.domainMax.x motion.x.pos else x
  y :=
    let y := if cell.iy = 0 then motion.y.bounceMin box.domainMin.y motion.y.pos else motion.y
    if cell.iy = sim.ny - 1 then y.bounceMax box.domainMax.y motion.y.pos else y
  z :=
    let z := if cell.iz = 0 then motion.z.bounceMin box.domainMin.z motion.z.pos else motion.z
    if cell.iz = sim.nz - 1 then z.bounceMax box.domainMax.z motion.z.pos else z

/-- `ProcessCollisions2MT`, applied for all thread ids. -/
def processCollisions2MT (mem : Mem α) : Option (Mem α) :=
  sim.grids.foldlM (fun mem grid => grid.cells.foldlM (fun mem cell =>
    sim.forCell (fun block j mem =>
      some (mem.changeAt (block, j % sim.perCell) (sim.collide2 box cell)))
      (sim.index cell) mem) mem) mem

end Sim

namespace Chains

variable {sim : Sim} {next : Addr → Option Addr} (chains : Chains sim next) (box : Box α)

/-- Each particle of each cell of some walls. -/
def visits (work : List (Wall × Coord)) : List (Wall × Slot) :=
  work.flatMap fun item => (chains.cellSlots item.2).map (item.1, ·)

/-- The motions after the loop over a cell of a wall. -/
def bounced (motion : Slot → Motion α) (item : Wall × Coord) : Slot → Motion α :=
  changeAll (box.bounce item.1) (chains.cellSlots item.2) motion

/-- In the loops over cells of walls the pointers move behind every block. -/
def AllMove : List (Wall × Coord) → (Slot → Motion α) → Prop
  | [], _ => True
  | item :: rest, motion => chains.Moves (box.steps item.1) item.2 0 motion ∧
      AllMove rest (chains.bounced box motion item)

variable {box} {work : List (Wall × Coord)} {mem after : Mem α}

/-- The loops in which the pointers move behind every block. -/
theorem bounceCells_eq (inside : ∀ item ∈ work, sim.Inside item.2) (links : mem.next = next)
    (moves : chains.AllMove box work mem.motion) :
    sim.bounceCells box work mem =
      some (mem.withMotion (work.foldl (chains.bounced box) mem.motion), chains.visits work) := by
  induction work generalizing mem with
  | nil => rfl
  | cons item work ih =>
    obtain ⟨wall, cell⟩ := item
    have here := inside (wall, cell) List.mem_cons_self
    have first := chains.walk_eq (box.bounce wall) here _ 0 links (Nat.zero_add _)
      (fun _ => by rw [Nat.zero_div, chains.head]) moves.1
    have kept : (mem.withMotion (chains.bounced box mem.motion (wall, cell))).next = next := links
    have rest := ih (fun other member => inside other (List.mem_cons_of_mem _ member)) kept moves.2
    exact Option.bind_eq_some_iff.mpr ⟨_, first, Option.bind_eq_some_iff.mpr ⟨_, rest, rfl⟩⟩

/-- Loops that visit each particle once have moved their pointers behind every block. -/
theorem allMove_of_visits (inside : ∀ item ∈ work, sim.Inside item.2) (links : mem.next = next)
    (ran : sim.bounceCells box work mem = some (after, chains.visits work)) :
    chains.AllMove box work mem.motion := by
  induction work generalizing mem with
  | nil => trivial
  | cons item work ih =>
    obtain ⟨wall, cell⟩ := item
    have here := inside (wall, cell) List.mem_cons_self
    obtain ⟨⟨middle, visited⟩, first, ran⟩ := Option.bind_eq_some_iff.mp ran
    obtain ⟨⟨last, others⟩, rest, same⟩ := Option.bind_eq_some_iff.mp ran
    obtain ⟨rfl, trace⟩ := Prod.mk.inj (Option.some.inj same)
    obtain ⟨own, more⟩ := List.append_inj trace (by
      rw [List.length_map, List.length_map, walk_length first]
      simp [cellSlots, slots])
    obtain rfl : visited = chains.cellSlots cell :=
      List.map_injective_iff.mpr (Prod.mk_right_injective wall) own
    have current : 0 < sim.cnumPars (sim.index cell) →
        some (sim.cellAt (sim.index cell)) = some (chains.block cell (0 / sim.perCell)) :=
      fun _ => by rw [Nat.zero_div, chains.head]
    have moves := chains.moves_of_walk here _ 0 links (Nat.zero_add _) current first
    refine ⟨moves, ?_⟩
    have after := chains.walk_eq (box.bounce wall) here _ 0 links (Nat.zero_add _)
      current moves
    obtain ⟨rfl, -⟩ := Prod.mk.inj (Option.some.inj (first.symm.trans after))
    obtain rfl : others = chains.visits work := more
    have kept : (mem.withMotion (chains.bounced box mem.motion (wall, cell))).next = next := links
    exact ih (fun other member => inside other (List.mem_cons_of_mem _ member)) kept rest

/-- The loops over the cells of some walls reflect a particle once for each wall of its cell. -/
theorem along_motion (walls : List Wall) (motion : Slot → Motion α) {particle : ParticleId}
    (holds : sim.Holds particle) :
    (sim.along walls).foldl (chains.bounced box) motion (chains.slot particle) =
      (walls.filter fun wall => sim.Touches wall particle.1).foldl
        (fun motion wall => box.bounce wall motion) (motion (chains.slot particle)) := by
  induction walls generalizing motion with
  | nil => rfl
  | cons wall walls ih =>
    have one := chains.foldl_cells (fun _ => box.bounce wall) (sim.wallCells_nodup wall)
      (fun cell member => (sim.mem_wallCells.mp member).1) motion holds
    have split : sim.along (wall :: walls) =
        (sim.wallCells wall).map (wall, ·) ++ sim.along walls := rfl
    rw [split, List.foldl_append, ih, List.foldl_map]
    show (walls.filter _).foldl _ ((sim.wallCells wall).foldl (fun motion cell =>
      changeAll (box.bounce wall) (chains.cellSlots cell) motion) motion
        (chains.slot particle)) = _
    rw [one]
    simp only [sim.mem_wallCells, holds.1, true_and]
    by_cases touches : sim.Touches wall particle.1
    · rw [if_pos touches, List.filter_cons_of_pos (by simpa using touches), List.foldl_cons]
    · rw [if_neg touches, List.filter_cons_of_neg (by simpa using touches)]

/-- The walls of two lists, one after the other. -/
theorem allMove_append (first last : List (Wall × Coord)) (motion : Slot → Motion α) :
    chains.AllMove box (first ++ last) motion ↔ chains.AllMove box first motion ∧
      chains.AllMove box last (first.foldl (chains.bounced box) motion) := by
  induction first generalizing motion with
  | nil => exact ⟨fun all => ⟨trivial, all⟩, And.right⟩
  | cons item first ih =>
    rw [List.cons_append, AllMove, AllMove, ih, and_assoc, List.foldl_cons]

/-- Along the other walls every pointer moves. -/
theorem allMove_of_ne (free : ∀ item ∈ work, item.1 ≠ .maxY) (motion : Slot → Motion α) :
    chains.AllMove box work motion := by
  induction work generalizing motion with
  | nil => trivial
  | cons item work ih =>
    have others := fun other member => free other (List.mem_cons_of_mem item member)
    refine ⟨fun j _ _ _ => ?_, ih others _⟩
    have other := free item List.mem_cons_self
    cases wall : item.1 with
    | maxY => exact absurd wall other
    | _ => rfl

/-- Along one wall the loop over a cell does not change what another cell needs. -/
theorem allMove_wall (wall : Wall) {cells : List Coord} (nodup : cells.Nodup)
    (inside : ∀ cell ∈ cells, sim.Inside cell) (motion : Slot → Motion α) :
    chains.AllMove box (cells.map (wall, ·)) motion ↔
      ∀ cell ∈ cells, chains.Moves (box.steps wall) cell 0 motion := by
  induction cells generalizing motion with
  | nil => simp [AllMove]
  | cons cell cells ih =>
    obtain ⟨fresh, nodup⟩ := List.nodup_cons.mp nodup
    have insides := fun other member => inside other (List.mem_cons_of_mem cell member)
    rw [List.map_cons, AllMove, ih nodup insides, List.forall_mem_cons]
    refine and_congr_right fun _ => forall₂_congr fun other member => ?_
    refine forall_congr' fun j => forall₃_congr fun _ more _ => ?_
    have apart : other ≠ cell := fun same => fresh (same ▸ member)
    rw [bounced, chains.changeAll_cellSlots (inside cell List.mem_cons_self) motion
      (show sim.Holds (other, j) from ⟨insides other member, Nat.lt_of_succ_lt more⟩), if_neg apart]

end Chains

/-- A reflection of each wall in a list that the cell lies on, one after the other. -/
theorem foldl_filter_cons (sim : Sim) (box : Box α) (cell : Coord) (wall : Wall) (rest : List Wall)
    (motion : Motion α) :
    ((wall :: rest).filter fun wall => sim.Touches wall cell).foldl
        (fun motion wall => box.bounce wall motion) motion =
      (rest.filter fun wall => sim.Touches wall cell).foldl
        (fun motion wall => box.bounce wall motion)
        (if sim.Touches wall cell then box.bounce wall motion else motion) := by
  by_cases touches : sim.Touches wall cell
  · rw [List.filter_cons_of_pos (by simpa using touches), if_pos touches, List.foldl_cons]
  · rw [List.filter_cons_of_neg (by simpa using touches), if_neg touches]

/-- A reflection changes one axis. -/
theorem ite_bounce (box : Box α) (touches : Prop) [Decidable touches] (wall : Wall)
    (motion : Motion α) : (if touches then box.bounce wall motion else motion) =
      match wall with
      | .minX => { motion with x :=
          if touches then motion.x.bounceMin box.domainMin.x motion.x.pos else motion.x }
      | .maxX => { motion with x :=
          if touches then motion.x.bounceMax box.domainMax.x motion.x.pos else motion.x }
      | .minY => { motion with y :=
          if touches then motion.y.bounceMin box.domainMin.y motion.y.pos else motion.y }
      | .maxY => { motion with y :=
          if touches then motion.y.bounceMax box.domainMax.y motion.y.pos else motion.y }
      | .minZ => { motion with z :=
          if touches then motion.z.bounceMin box.domainMin.z motion.z.pos else motion.z }
      | .maxZ => { motion with z :=
          if touches then motion.z.bounceMax box.domainMax.z motion.z.pos else motion.z } := by
  cases wall <;> (split <;> rfl)

/-- What the serial version leaves in a motion. -/
def Sim.serial2 (sim : Sim) (box : Box α) (cell : Coord) (motion : Motion α) : Motion α where
  x :=
    let x := if cell.ix = 0 then motion.x.bounceMin box.domainMin.x motion.x.pos else motion.x
    if cell.ix = sim.nx - 1 then x.bounceMax box.domainMax.x x.pos else x
  y :=
    let y := if cell.iy = 0 then motion.y.bounceMin box.domainMin.y motion.y.pos else motion.y
    if cell.iy = sim.ny - 1 then y.bounceMax box.domainMax.y y.pos else y
  z :=
    let z := if cell.iz = 0 then motion.z.bounceMin box.domainMin.z motion.z.pos else motion.z
    if cell.iz = sim.nz - 1 then z.bounceMax box.domainMax.z z.pos else z

/-- The walls that a cell touches, in order, are those of the serial loop. -/
theorem foldl_walls (sim : Sim) (box : Box α) (cell : Coord) (motion : Motion α) :
    (walls.filter fun wall => sim.Touches wall cell).foldl
      (fun motion wall => box.bounce wall motion) motion = sim.serial2 box cell motion := by
  unfold walls
  simp only [foldl_filter_cons, List.filter_nil, List.foldl_nil, ite_bounce]
  rfl

/-- The motion along the y axis in front of the upper y wall. -/
theorem foldl_walls_y (sim : Sim) (box : Box α) (cell : Coord) (motion : Motion α) :
    ((([.minX, .maxX, .minY] : List Wall).filter fun wall => sim.Touches wall cell).foldl
      (fun motion wall => box.bounce wall motion) motion).y =
        if cell.iy = 0 then motion.y.bounceMin box.domainMin.y motion.y.pos else motion.y := by
  simp only [foldl_filter_cons, List.filter_nil, List.foldl_nil, ite_bounce]
  rfl

/-- The reflection at the upper wall changes each particle beyond it. -/
theorem bounceMax_eq_self [IsStrictOrderedRing α] {domainMax : α} {axis : Axis α} :
    axis.bounceMax domainMax axis.pos = axis ↔ ¬ domainMax - axis.pos < 0 := by
  constructor
  · intro same beyond
    have moved := congrArg Axis.pos same
    rw [Axis.bounceMax, if_pos beyond] at moved
    dsimp only at moved
    linarith
  · exact fun before => if_neg before

/-- The two versions agree along an axis unless a particle that is before both walls lies below the
lower wall by more than their distance. -/
theorem axis_agree [IsStrictOrderedRing α] {domainMin domainMax : α}
    (apart : domainMin < domainMax) (low high : Prop) [Decidable low] [Decidable high]
    (axis : Axis α) :
    (let now := if low then axis.bounceMin domainMin axis.pos else axis
      if high then now.bounceMax domainMax now.pos else now) =
      (let now := if low then axis.bounceMin domainMin axis.pos else axis
        if high then now.bounceMax domainMax axis.pos else now) ↔
      (low → high → domainMin - (domainMax - domainMin) ≤ axis.pos) := by
  by_cases isHigh : high
  · by_cases isLow : low
    · simp only [isHigh, isLow, if_true, forall_true_left]
      by_cases below : axis.pos - domainMin < 0
      · have reflected : axis.bounceMin domainMin axis.pos =
            ⟨domainMin - (axis.pos - domainMin), -axis.v, -axis.hv⟩ := if_pos below
        have before : ¬ domainMax - axis.pos < 0 := by linarith
        have kept : ∀ now : Axis α, now.bounceMax domainMax axis.pos = now := fun _ => if_neg before
        rw [reflected, kept, bounceMax_eq_self]
        dsimp only
        rw [not_lt, sub_nonneg, sub_sub_eq_add_sub, sub_le_iff_le_add, sub_le_iff_le_add]
        constructor <;> intro bound <;> linarith
      · have same : axis.bounceMin domainMin axis.pos = axis := if_neg below
        rw [same, iff_true_left rfl]
        linarith
    · simp [isHigh, isLow]
  · simp [isHigh]

namespace Chains

variable {sim : Sim} {next : Addr → Option Addr} (chains : Chains sim next) {box : Box α}
variable {mem : Mem α}

/-- The FastFlow version reflects each particle once, with the tests of its cell. -/
theorem processCollisions2MT_eq (box : Box α) (partitioned : sim.Partitioned)
    (links : mem.next = next) :
    ∃ motion, sim.processCollisions2MT box mem = some (mem.withMotion motion) ∧
      ∀ particle, sim.Holds particle → motion (chains.slot particle) =
        sim.collide2 box particle.1 (mem.motion (chains.slot particle)) := by
  have inside : ∀ cell ∈ sim.grids.flatMap Grid.cells, sim.Inside cell :=
    fun _ member => partitioned.mem.mp member
  refine ⟨(sim.grids.flatMap Grid.cells).foldl (fun motion cell =>
      changeAll (sim.collide2 box cell) (chains.cellSlots cell) motion) mem.motion,
    ?_, fun particle holds => ?_⟩
  · have cells : ∀ (cells : List Coord) (motion : Slot → Motion α),
        (∀ cell ∈ cells, sim.Inside cell) →
        cells.foldlM (fun mem cell => sim.forCell (fun block j mem =>
          some (mem.changeAt (block, j % sim.perCell) (sim.collide2 box cell)))
            (sim.index cell) mem) (mem.withMotion motion) =
          some (mem.withMotion (cells.foldl (fun motion cell =>
            changeAll (sim.collide2 box cell) (chains.cellSlots cell) motion) motion)) := by
      intro cells
      induction cells with
      | nil => exact fun _ _ => rfl
      | cons cell cells ih =>
        intro motion inside
        rw [List.foldlM_cons, chains.forCell_change (inside cell List.mem_cons_self) _ links]
        exact ih _ fun other member => inside other (List.mem_cons_of_mem _ member)
    rw [← cells _ _ inside, foldlM_flatMap]
    rfl
  · rw [chains.foldl_cells _ partitioned.nodup inside mem.motion holds,
      if_pos (partitioned.mem.mpr holds.1)]

/-- The pointers move behind every block exactly when they do along the upper y wall. -/
theorem allMove_walls :
    chains.AllMove box (sim.along walls) mem.motion ↔
      ∀ cell, sim.Inside cell → cell.iy = sim.ny - 1 → ∀ j,
        j + 1 < sim.cnumPars (sim.index cell) → j % sim.perCell = sim.perCell - 1 →
          let y := (mem.motion (chains.slot (cell, j))).y
          box.domainMax.y - (if cell.iy = 0 then y.bounceMin box.domainMin.y y.pos else y).pos
            < 0 := by
  have split : sim.along walls = sim.along [.minX, .maxX, .minY] ++
      ((sim.wallCells .maxY).map (.maxY, ·) ++ sim.along [.minZ, .maxZ]) := by
    simp [Sim.along, walls]
  have free : ∀ walls : List Wall, .maxY ∉ walls → ∀ item ∈ sim.along walls, item.1 ≠ .maxY := by
    intro walls without item member same
    obtain ⟨wall, listed, member⟩ := List.mem_flatMap.mp member
    obtain ⟨cell, -, rfl⟩ := List.mem_map.mp member
    exact without (same ▸ listed)
  have before := free [.minX, .maxX, .minY] (by decide)
  have behind := free [.minZ, .maxZ] (by decide)
  rw [split, chains.allMove_append, chains.allMove_append,
    and_iff_right (chains.allMove_of_ne before _), and_iff_left (chains.allMove_of_ne behind _),
    chains.allMove_wall .maxY (sim.wallCells_nodup _)
      (fun cell member => (sim.mem_wallCells.mp member).1)]
  simp only [sim.mem_wallCells, and_imp]
  refine forall_congr' fun cell => forall₂_congr fun inside touches => forall_congr' fun j => ?_
  constructor
  · intro moves more last
    have goes := moves (Nat.zero_le _) more last
    rw [Box.steps, chains.along_motion _ _ ⟨inside, Nat.lt_of_succ_lt more⟩, foldl_walls_y] at goes
    exact of_decide_eq_true goes
  · intro beyond _ more last
    rw [Box.steps, chains.along_motion _ _ ⟨inside, Nat.lt_of_succ_lt more⟩, foldl_walls_y]
    exact decide_eq_true (beyond more last)

variable [IsStrictOrderedRing α]

/-- Both versions reach the end, the serial one visits each particle of each wall cell once for the
wall, and both leave each particle with one reflection for each wall that it was beyond. -/
def Agree (box : Box α) (mem : Mem α) : Prop :=
  ∃ after afterMT,
    sim.processCollisions2 box mem = some (after, chains.visits (sim.along walls)) ∧
      sim.processCollisions2MT box mem = some afterMT ∧
      ∀ particle, sim.Holds particle →
        after.motion (chains.slot particle) = afterMT.motion (chains.slot particle) ∧
        afterMT.motion (chains.slot particle) =
          sim.collide2 box particle.1 (mem.motion (chains.slot particle))

/-- In the cells of the upper y wall the last particle of each block is beyond the wall when the
cell has more of them. -/
def LastsBeyond (box : Box α) (mem : Mem α) : Prop :=
  ∀ cell, sim.Inside cell → cell.iy = sim.ny - 1 → ∀ j,
    j + 1 < sim.cnumPars (sim.index cell) → j % sim.perCell = sim.perCell - 1 →
      box.domainMax.y < (mem.p (chains.slot (cell, j))).y

/-- On an axis with one cell no particle lies below the domain by more than its length. -/
def Near (box : Box α) (mem : Mem α) : Prop :=
  ∀ particle, sim.Holds particle →
    (sim.nx = 1 → box.domainMin.x - (box.domainMax.x - box.domainMin.x) ≤
      (mem.p (chains.slot particle)).x) ∧
    (sim.ny = 1 → box.domainMin.y - (box.domainMax.y - box.domainMin.y) ≤
      (mem.p (chains.slot particle)).y) ∧
    (sim.nz = 1 → box.domainMin.z - (box.domainMax.z - box.domainMin.z) ≤
      (mem.p (chains.slot particle)).z)

omit [IsStrictOrderedRing α] in
/-- An axis has one cell when the cell is the first and the last on it. -/
theorem only_iff {n i : Nat} (bound : i < n) (far : Prop) :
    (i = 0 → i = n - 1 → far) ↔ (n = 1 → far) := by
  constructor
  · exact fun both one => both (by omega) (by omega)
  · exact fun one first last => one (by omega)

/-- The tests of the two versions leave the same motion. -/
theorem serial2_eq_collide2_iff {particle : ParticleId} (holds : sim.Holds particle) :
    sim.serial2 box particle.1 (mem.motion (chains.slot particle)) =
        sim.collide2 box particle.1 (mem.motion (chains.slot particle)) ↔
      (sim.nx = 1 → box.domainMin.x - (box.domainMax.x - box.domainMin.x) ≤
        (mem.p (chains.slot particle)).x) ∧
      (sim.ny = 1 → box.domainMin.y - (box.domainMax.y - box.domainMin.y) ≤
        (mem.p (chains.slot particle)).y) ∧
      (sim.nz = 1 → box.domainMin.z - (box.domainMax.z - box.domainMin.z) ≤
        (mem.p (chains.slot particle)).z) := by
  obtain ⟨boundX, boundY, boundZ⟩ := holds.1
  rw [← only_iff boundX, ← only_iff boundY, ← only_iff boundZ, Motion.ext_iff]
  exact and_congr (axis_agree box.ltX _ _ _)
    (and_congr (axis_agree box.ltY _ _ _) (axis_agree box.ltZ _ _ _))

/-- A particle is beyond the upper y wall when the loop along it comes to it exactly when it was at
the begin. -/
theorem beyond_iff {cell : Coord} (touches : cell.iy = sim.ny - 1) {axis : Axis α}
    (near : sim.ny = 1 → box.domainMin.y - (box.domainMax.y - box.domainMin.y) ≤ axis.pos) :
    box.domainMax.y - (if cell.iy = 0 then axis.bounceMin box.domainMin.y axis.pos else axis).pos
      < 0 ↔ box.domainMax.y < axis.pos := by
  have apart := box.ltY
  by_cases first : cell.iy = 0
  · have one : sim.ny = 1 := by
      have positive := sim.ny_pos
      omega
    have bound := near one
    rw [if_pos first, Axis.bounceMin]
    by_cases below : axis.pos - box.domainMin.y < 0
    · rw [if_pos below]
      constructor <;> intro beyond <;> linarith
    · rw [if_neg below, sub_neg]
  · rw [if_neg first, sub_neg]

omit [IsStrictOrderedRing α] in
/-- The serial version when its pointers move behind every block. -/
theorem processCollisions2_eq (links : mem.next = next)
    (moves : chains.AllMove box (sim.along walls) mem.motion) :
    ∃ motion, sim.processCollisions2 box mem =
        some (mem.withMotion motion, chains.visits (sim.along walls)) ∧
      ∀ particle, sim.Holds particle → motion (chains.slot particle) =
        sim.serial2 box particle.1 (mem.motion (chains.slot particle)) := by
  refine ⟨_, chains.bounceCells_eq sim.along_inside links moves, fun particle holds => ?_⟩
  rw [chains.along_motion walls mem.motion holds, foldl_walls]

/-- The two versions agree when the pointers move behind every block and each reflection stays below
the other wall. -/
theorem agree_iff_moves (partitioned : sim.Partitioned) (links : mem.next = next) :
    chains.Agree box mem ↔
      chains.AllMove box (sim.along walls) mem.motion ∧ chains.Near box mem := by
  obtain ⟨motionMT, ranMT, leftMT⟩ := chains.processCollisions2MT_eq box partitioned links
  constructor
  · rintro ⟨after, afterMT, ran, ranMT', same⟩
    have moves := chains.allMove_of_visits sim.along_inside links ran
    obtain ⟨motion, ran', left⟩ := chains.processCollisions2_eq links moves
    obtain ⟨rfl, -⟩ := Prod.mk.inj (Option.some.inj (ran.symm.trans ran'))
    obtain rfl := Option.some.inj (ranMT'.symm.trans ranMT)
    refine ⟨moves, fun particle holds => (chains.serial2_eq_collide2_iff holds).mp ?_⟩
    rw [← left particle holds, ← leftMT particle holds]
    exact (same particle holds).1
  · rintro ⟨moves, near⟩
    obtain ⟨motion, ran, left⟩ := chains.processCollisions2_eq links moves
    refine ⟨_, _, ran, ranMT, fun particle holds => ⟨?_, leftMT particle holds⟩⟩
    rw [Mem.motion_withMotion, Mem.motion_withMotion, left particle holds, leftMT particle holds]
    exact (chains.serial2_eq_collide2_iff holds).mpr (near particle holds)

/-- The serial version visits every particle of every wall cell and leaves what the FastFlow version
leaves exactly when, along the upper y wall, the last particle of each block is beyond the wall
where the cell has more of them, and on an axis with one cell no particle is too far below. -/
theorem processCollisions2_agrees_iff (partitioned : sim.Partitioned) (links : mem.next = next) :
    chains.Agree box mem ↔ chains.LastsBeyond box mem ∧ chains.Near box mem := by
  rw [chains.agree_iff_moves partitioned links, chains.allMove_walls]
  refine and_congr_left fun near => forall_congr' fun cell => forall₂_congr fun inside touches => ?_
  refine forall_congr' fun j => forall₂_congr fun more _ => ?_
  exact beyond_iff touches (near (cell, j) ⟨inside, Nat.lt_of_succ_lt more⟩).2.1

end Chains

section Sample

/-- The unit cube. -/
def sampleBox : Box ℚ where
  domainMin := ⟨0, 0, 0⟩
  domainMax := ⟨1, 1, 1⟩
  ltX := by decide
  ltY := by decide
  ltZ := by decide

/-- A small domain without a cell on a wrong wall. -/
theorem processCollisions2_agrees_sample :
    sampleSim.Partitioned ∧ sampleMem.next = sampleMem.next ∧
      sampleChains.Agree sampleBox sampleMem := by
  have partitioned : sampleSim.Partitioned := by decide +kernel
  refine ⟨partitioned, rfl,
    (sampleChains.processCollisions2_agrees_iff partitioned rfl).mpr ⟨?_, ?_⟩⟩
  · intro cell _ _ j more _
    have few : sampleSim.cnumPars (sampleSim.index cell) ≤ 1 := by
      change (if sampleSim.index cell = 16 then 1 else 0) ≤ 1
      split <;> decide
    omega
  · have wide : (3 : Nat) ≠ 1 := by decide
    exact fun _ _ => ⟨fun one => absurd one wide, fun one => absurd one wide,
      fun one => absurd one wide⟩

/-- The sample with 17 particles in the cell. -/
def crowdedSim : Sim :=
  { sampleSim with cnumPars := fun index => if index = 16 then 17 else 0 }

/-- The cell `(1, 2, 1)` has a second block, and the particle in it is beyond the upper y wall. -/
def crowdedMem : Mem ℚ :=
  { sampleMem with
    p := fun slot => if slot = (5184, 0) then ⟨1 / 2, 11 / 10, 1 / 2⟩ else ⟨1 / 2, 9 / 10, 1 / 2⟩
    next := fun block => if block = 3072 then some 5184 else none }

/-- Only one cell has particles. -/
theorem crowded_cell {cell : Coord} (inside : crowdedSim.Inside cell) {n : Nat}
    (some : n < crowdedSim.cnumPars (crowdedSim.index cell)) : cell = ⟨1, 2, 1⟩ ∧ n < 17 := by
  change n < if crowdedSim.index cell = 16 then 17 else 0 at some
  split at some
  · rename_i here
    exact ⟨crowdedSim.index_injective inside (by decide) here, some⟩
  · exact absurd some (Nat.not_lt_zero n)

/-- Seventeen particles fill one block. -/
theorem full_block {t : Nat} (bound : (t + 1) * 16 < 17) : t = 0 := by omega

/-- Seventeen particles lie in two blocks. -/
theorem two_blocks {t t' : Nat} (bound : t * 16 < 17) (bound' : t' * 16 < 17)
    (different : t ≠ t') : t = 0 ∧ t' = 1 ∨ t = 1 ∧ t' = 0 := by omega

/-- The chains of the crowded sample. -/
def crowdedChains : Chains crowdedSim crowdedMem.next where
  block cell t := if t = 0 then crowdedSim.cellAt (crowdedSim.index cell) else 5184
  head _ := rfl
  linked cell inside t more := by
    obtain ⟨rfl, bound⟩ := crowded_cell inside more
    obtain rfl := full_block bound
    rfl
  apart cell other inside inside' t t' used used' different := by
    obtain ⟨rfl, bound⟩ := crowded_cell inside used
    obtain ⟨rfl, bound'⟩ := crowded_cell inside' used'
    change t * 16 < 17 at bound
    change t' * 16 < 17 at bound'
    have numbers : t ≠ t' := fun same => different (by rw [same])
    rcases two_blocks bound bound' numbers with ⟨rfl, rfl⟩ | ⟨rfl, rfl⟩ <;> decide

/-- The serial version leaves the last particle of the crowded cell beyond the wall, the FastFlow
version reflects it. -/
theorem processCollisions2_misses :
    crowdedSim.Partitioned ∧ ¬ crowdedChains.Agree sampleBox crowdedMem ∧
      (crowdedSim.processCollisions2 sampleBox crowdedMem).map (fun run => run.1.p (5184, 0)) =
        some ⟨1 / 2, 11 / 10, 1 / 2⟩ ∧
      (crowdedSim.processCollisions2MT sampleBox crowdedMem).map (fun mem => mem.p (5184, 0)) =
        some ⟨1 / 2, 9 / 10, 1 / 2⟩ := by
  have partitioned : crowdedSim.Partitioned := by decide +kernel
  have left : (crowdedSim.processCollisions2 sampleBox crowdedMem).map
      (fun run => run.1.p (5184, 0)) = some ⟨1 / 2, 11 / 10, 1 / 2⟩ := by
    decide +kernel
  have reflected : (crowdedSim.processCollisions2MT sampleBox crowdedMem).map
      (fun mem => mem.p (5184, 0)) = some ⟨1 / 2, 9 / 10, 1 / 2⟩ := by
    decide +kernel
  refine ⟨partitioned, ?_, left, reflected⟩
  rintro ⟨after, afterMT, ran, ranMT, same⟩
  rw [ran] at left
  rw [ranMT] at reflected
  have motions := (same (⟨1, 2, 1⟩, 16) ⟨by decide, by decide⟩).1
  have heights : (after.p (5184, 0)).y = (afterMT.p (5184, 0)).y :=
    congrArg (fun motion => motion.y.pos) motions
  have pushed : afterMT.p (5184, 0) = ⟨1 / 2, 9 / 10, 1 / 2⟩ := Option.some.inj reflected
  have missed : after.p (5184, 0) = ⟨1 / 2, 11 / 10, 1 / 2⟩ := Option.some.inj left
  rw [pushed, missed] at heights
  exact absurd heights (by decide +kernel)

end Sample

end P3arsec.Fluidanimate
