import P3arsec.Fluidanimate.Border
import P3arsec.Lib.Marks
import P3arsec.Lib.Pools
import P3arsec.Lib.Run

/-!
# Rebuilding the particle grid

In each frame the particles are moved from the chains of the array `cells2` to those of `cells`.
`ClearParticlesMT` empties the array `cells`. In `RebuildGridMT` a thread walks the chains of the
cells of its grid. For each particle it takes the next slot of the cell in which the particle lies,
with one more block from its pool where the last one is full, and copies the particle to it. It
gives the blocks of its chains back to its pool when it has passed them, and may take them again
for its next particles.

The threads take steps in any order. Each block has one holder: a pool, or a place in an old or in a
new chain (`Pools.Held`). A slot that has been taken belongs to one particle, which its thread
copies to it from a block that is still in an old chain. When all threads have finished the old
chains have been given back, and the new chains are a grid for the next frame (`Valid`).
-/

namespace P3arsec.Fluidanimate

open P3arsec.Lib

/-- What is stored of a particle between the frames. -/
structure Particle (α : Type) where
  /-- Position. -/
  p : Vec3 α
  /-- Half-step velocity. -/
  hv : Vec3 α
  /-- Velocity. -/
  v : Vec3 α

namespace Mem

variable {α : Type}

/-- The particle in a slot. -/
def particle (mem : Mem α) (slot : Slot) : Particle α := ⟨mem.p slot, mem.hv slot, mem.v slot⟩

/-- The source particle is copied to the destination. -/
def copyParticle (mem : Mem α) (dest source : Slot) : Mem α :=
  { mem with
    p := Function.update mem.p dest (mem.p source)
    hv := Function.update mem.hv dest (mem.hv source)
    v := Function.update mem.v dest (mem.v source) }

/-- An assignment to `next`. -/
def setNext (mem : Mem α) (cell : Addr) (link : Option Addr) : Mem α :=
  { mem with next := Function.update mem.next cell link }

/-- A copy of a particle keeps the links. -/
@[simp] theorem next_copyParticle (mem : Mem α) (dest source : Slot) :
    (mem.copyParticle dest source).next = mem.next := rfl

/-- A link is no particle. -/
@[simp] theorem particle_setNext (mem : Mem α) (cell : Addr) (link : Option Addr) :
    (mem.setNext cell link).particle = mem.particle := rfl

/-- One link changes. -/
@[simp] theorem next_setNext (mem : Mem α) (cell : Addr) (link : Option Addr) :
    (mem.setNext cell link).next = Function.update mem.next cell link := rfl

/-- The particle is copied. -/
@[simp] theorem particle_copyParticle_self (mem : Mem α) (dest source : Slot) :
    (mem.copyParticle dest source).particle dest = mem.particle source := by
  simp [particle, copyParticle]

/-- The other particles are kept. -/
theorem particle_copyParticle_of_ne (mem : Mem α) {dest source other : Slot}
    (distinct : other ≠ dest) :
    (mem.copyParticle dest source).particle other = mem.particle other := by
  simp [particle, copyParticle, Function.update_of_ne distinct]

end Mem

/-- The constants by which a position is mapped to a cell. -/
structure Space (α : Type) where
  /-- The lower corner of the domain. -/
  domainMin : Vec3 α
  /-- The size of a cell. -/
  delta : Vec3 α
  /-- The cast to `int`. -/
  toInt : α → Int

namespace Sim

variable (sim : Sim) {α : Type} [Sub α] [Div α]

/-- The cell of a position, which is clamped to the domain. -/
def cellOf (space : Space α) (p : Vec3 α) : Coord where
  ix := (confine (space.toInt ((p.x - space.domainMin.x) / space.delta.x)) sim.nx).toNat
  iy := (confine (space.toInt ((p.y - space.domainMin.y) / space.delta.y)) sim.ny).toNat
  iz := (confine (space.toInt ((p.z - space.domainMin.z) / space.delta.z)) sim.nz).toNat

omit [Sub α] [Div α] in
/-- A coordinate that is clamped lies in the domain. -/
theorem confine_lt {n : Nat} (positive : 0 < n) (i : Int) : (confine i n).toNat < n := by
  unfold confine
  split_ifs <;> omega

/-- The cell of a particle is inside the domain. -/
theorem inside_cellOf (space : Space α) (p : Vec3 α) : sim.Inside (sim.cellOf space p) :=
  ⟨confine_lt sim.nx_pos _, confine_lt sim.ny_pos _, confine_lt sim.nz_pos _⟩

/-- Two blocks do not overlap. -/
def Apart (cell other : Nat) : Prop :=
  cell + sim.sizeofCell ≤ other ∨ other + sim.sizeofCell ≤ cell

instance (cell other : Nat) : Decidable (sim.Apart cell other) :=
  inferInstanceAs (Decidable (_ ∨ _))

instance : DecidableRel sim.Apart := fun _ _ => inferInstance

instance : Std.Symm sim.Apart := ⟨fun _ _ => Or.symm⟩

/-- A block overlaps itself. -/
theorem not_apart (cell : Nat) : ¬sim.Apart cell cell := by
  have room := sim.fits
  have positive := Nat.mul_pos sim.perCell_pos sim.sizeofVec3_pos
  unfold Apart
  omega

/-- The address of an entry of the array `cells` that the particles are put into, which begins at
`base`. -/
def destAt (base index : Nat) : Nat := base + index * sim.sizeofCell

end Sim

/-- The memory, the counts of particles, the last blocks and the pools. -/
structure Store (α : Type) where
  /-- The memory of the blocks. -/
  mem : Mem α
  /-- The number of particles that have been put into each cell. -/
  cnumPars : Nat → Nat
  /-- The last block of each cell. -/
  lastCells : Nat → Addr
  /-- The pools of the threads. -/
  pools : Pools Nat Addr

/-- What a thread does in `RebuildGridMT`. -/
structure Walker where
  /-- The cells from the current one on. -/
  cells : List Coord
  /-- The block of the current cell that it reads. -/
  cell2 : Option Addr
  /-- The number of the particle in the current cell. -/
  j : Nat
  /-- The slot that it has taken for the particle. -/
  slot : Option Slot

/-- A state of `RebuildGridMT`. -/
structure Rebuild (α : Type) extends Store α where
  /-- The threads. -/
  walkers : Nat → Walker
  /-- The blocks that have been given back, the last one first. -/
  returned : List Addr

namespace Store

variable {α : Type} (sim : Sim)

/-- `ClearParticlesMT` for one cell. -/
def clearCell (base index : Nat) (store : Store α) : Store α :=
  { store with
    cnumPars := Function.update store.cnumPars index 0
    mem := store.mem.setNext (sim.destAt base index) none
    lastCells := Function.update store.lastCells index (sim.destAt base index) }

/-- `ClearParticlesMT`. -/
def clearParticles (base : Nat) (store : Store α) : Store α :=
  sim.grids.foldl (fun store grid => grid.cells.foldl (fun store cell =>
    store.clearCell sim base (sim.index cell)) store) store

/-- `cellpool_getcell`: a block of the pool, with a null link. -/
def getcell (tid : Nat) (block : Addr) (fresh : List Addr) (store : Store α) :
    Option (Store α) := do
  let pools ← store.pools.grant sim.Apart tid block fresh
  some { store with pools, mem := store.mem.setNext block none }

/-- `cellpool_returncell`: the pool may use the link of the block. -/
def returncell (tid : Nat) (block : Addr) (link : Option Addr) (store : Store α) : Store α :=
  { store with pools := store.pools.giveBack tid block, mem := store.mem.setNext block link }

/-- The part of `RebuildGridMT` under the mutex of a cell: the next slot of the cell is taken, with
one more block from the pool where the last one is full. -/
def takeSlot (tid index : Nat) (block : Addr) (fresh : List Addr) (store : Store α) :
    Option (Slot × Store α) :=
  let cell := store.lastCells index
  let np := store.cnumPars index
  if np % sim.perCell = 0 ∧ store.cnumPars index ≠ 0 then do
    let store ← store.getcell sim tid block fresh
    some ((block, np % sim.perCell),
      { store with
        mem := store.mem.setNext cell (some block)
        lastCells := Function.update store.lastCells index block
        cnumPars := Function.update store.cnumPars index (np + 1) })
  else
    some ((cell, np % sim.perCell),
      { store with cnumPars := Function.update store.cnumPars index (np + 1) })

end Store

namespace Sim

variable (sim : Sim)

/-- The cells of a thread. -/
def cellsOf (tid : Nat) : List Coord := (sim.grids[tid]?.map Grid.cells).getD []

/-- A thread at the begin of the first one of its remaining cells. -/
def walk (cells : List Coord) : Walker where
  cells := cells
  cell2 := cells.head?.map fun cell => sim.cellAt (sim.index cell)
  j := 0
  slot := none

end Sim

namespace Rebuild

variable {α : Type} [Sub α] [Div α] (sim : Sim) (space : Space α)

/-- The begin of `RebuildGridMT` after `ClearParticlesMT`. -/
def start (base : Nat) (store : Store α) : Rebuild α where
  toStore := store.clearParticles sim base
  walkers tid := sim.walk (sim.cellsOf tid)
  returned := []

/-- A thread goes on. -/
def setWalker (tid : Nat) (walker : Walker) (s : Rebuild α) : Rebuild α :=
  { s with walkers := Function.update s.walkers tid walker }

/-- A thread returns a block that is not the statically allocated head of the list. -/
def returnOverflow (tid index : Nat) (block : Addr) (link : Option Addr) (s : Rebuild α) :
    Rebuild α :=
  if block ≠ sim.cellAt index then
    { s with toStore := s.toStore.returncell tid block link, returned := block :: s.returned }
  else s

/-- A thread finds the cell of its particle and takes a slot there. -/
def insert (tid : Nat) (block : Addr) (fresh : List Addr) (s : Rebuild α) : Option (Rebuild α) :=
  match s.walkers tid with
  | ⟨source :: rest, some cell2, j, none⟩ =>
    if j < sim.cnumPars (sim.index source) then do
      let index := sim.index (sim.cellOf space (s.mem.p (cell2, j % sim.perCell)))
      let (slot, store) ← s.toStore.takeSlot sim tid index block fresh
      some (setWalker tid ⟨source :: rest, some cell2, j, some slot⟩ { s with toStore := store })
    else none
  | _ => none

/-- A thread copies its particle to the slot, and moves to the next block at the end of the
current one. -/
def copy (tid : Nat) (link : Option Addr) (s : Rebuild α) : Option (Rebuild α) :=
  match s.walkers tid with
  | ⟨source :: rest, some cell2, j, some slot⟩ =>
    let s := { s with mem := s.mem.copyParticle slot (cell2, j % sim.perCell) }
    if j % sim.perCell = sim.perCell - 1 then
      let temp := cell2
      let s := s.setWalker tid ⟨source :: rest, s.mem.next cell2, j + 1, none⟩
      some (s.returnOverflow sim tid (sim.index source) temp link)
    else some (s.setWalker tid ⟨source :: rest, some cell2, j + 1, none⟩)
  | _ => none

/-- A thread leaves its current cell after the last particle. -/
def leave (tid : Nat) (link : Option Addr) (s : Rebuild α) : Option (Rebuild α) :=
  match s.walkers tid with
  | ⟨source :: rest, cell2, j, none⟩ =>
    if j < sim.cnumPars (sim.index source) then none
    else
      let s := s.setWalker tid (sim.walk rest)
      match cell2 with
      | some cell2 => some (s.returnOverflow sim tid (sim.index source) cell2 link)
      | none => some s
  | _ => none

/-- A step of a thread. What the pool chooses is in the step: the block that it gives out, the new
blocks that it takes from the system before, and the link that it writes to a block. -/
inductive Action where
  /-- A slot is taken. -/
  | insert (tid : Nat) (block : Addr) (fresh : List Addr)
  /-- The particle is copied. -/
  | copy (tid : Nat) (link : Option Addr)
  /-- The cell is left. -/
  | leave (tid : Nat) (link : Option Addr)

/-- The thread that takes the step. -/
def Action.tid : Action → Nat
  | .insert tid _ _ => tid
  | .copy tid _ => tid
  | .leave tid _ => tid

/-- The state after a step. -/
def act (s : Rebuild α) : Action → Option (Rebuild α)
  | .insert tid block fresh => s.insert sim space tid block fresh
  | .copy tid link => s.copy sim tid link
  | .leave tid link => s.leave sim tid link

/-- The steps of all threads. -/
def Step (s next : Rebuild α) : Prop := ∃ action, s.act sim space action = some next

/-- The state after some steps. -/
def acts (s : Rebuild α) (actions : List Action) : Option (Rebuild α) :=
  actions.foldlM (fun s action => s.act sim space action) s

/-- All threads have passed their cells. -/
def Finished (s : Rebuild α) : Prop := ∀ tid, (s.walkers tid).cells = []

/-- The states of `RebuildGridMT` after `ClearParticlesMT`. -/
def Reached (base : Nat) (store : Store α) : Rebuild α → Prop :=
  Reachable (· = start sim base store) (Step sim space)

variable {sim space}

/-- Steps lead from a state that is reached to another one. -/
theorem Reached.acts {base : Nat} {store : Store α} {s next : Rebuild α} {actions : List Action}
    (reached : Reached sim space base store s) (run : s.acts sim space actions = some next) :
    Reached sim space base store next := by
  induction actions generalizing s with
  | nil =>
    cases run
    exact reached
  | cons action actions ih =>
    unfold Rebuild.acts at run
    rw [List.foldlM_cons] at run
    obtain ⟨middle, moves, run⟩ := Option.bind_eq_some_iff.mp run
    exact ih (reached.step ⟨action, moves⟩) run

end Rebuild

end P3arsec.Fluidanimate
