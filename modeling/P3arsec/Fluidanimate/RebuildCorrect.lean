import P3arsec.Fluidanimate.Rebuild

/-!
# The rebuilt grid is valid

A step of `RebuildGridMT` changes an old chain, a new chain or a pool. `Filling` is what holds of
the new chains and the pools, and taking a slot keeps it. `Inv` relates the new chains to the
particles that the threads have passed: each of them has one place in the chain of its cell. A run
cannot get stuck before all threads have finished, and then the new chains are a valid grid with the
particles of the old one.
-/

namespace P3arsec.Fluidanimate

open P3arsec.Lib

namespace Sim

variable (sim : Sim)

/-- The number of the last block in a chain for a number of particles. -/
def lastBlock (np : Nat) : Nat := (np - 1) / sim.perCell

variable {sim} {np t i : Nat}

/-- The block of the last particle. -/
theorem lastBlock_succ : sim.lastBlock (np + 1) = np / sim.perCell := rfl

/-- Where the last block is full the next particle opens another one. -/
theorem div_of_full (full : np % sim.perCell = 0) (some : np ≠ 0) :
    np / sim.perCell = sim.lastBlock np + 1 := by
  have whole := Nat.div_add_mod np sim.perCell
  have positive := sim.perCell_pos
  unfold lastBlock
  obtain ⟨quotient, same⟩ : ∃ quotient, np / sim.perCell = quotient + 1 := by
    refine Nat.exists_eq_succ_of_ne_zero fun zero => some ?_
    rw [zero, full, Nat.mul_zero] at whole
    exact whole.symm
  have before : np - 1 = sim.perCell - 1 + sim.perCell * quotient := by
    rw [full, same, Nat.mul_succ] at whole
    omega
  rw [same, before, Nat.add_mul_div_left _ _ positive, Nat.div_eq_of_lt (by omega)]
  omega

/-- Where the last block has room the next particle goes there. -/
theorem div_of_room (room : ¬(np % sim.perCell = 0 ∧ np ≠ 0)) :
    np / sim.perCell = sim.lastBlock np := by
  have whole := Nat.div_add_mod np sim.perCell
  have below := Nat.mod_lt np sim.perCell_pos
  unfold lastBlock
  by_cases zero : np = 0
  · rw [zero]
  · have left : np % sim.perCell ≠ 0 := fun full => room ⟨full, zero⟩
    have before : np - 1 = np % sim.perCell - 1 + sim.perCell * (np / sim.perCell) := by omega
    have small : np % sim.perCell - 1 < sim.perCell := lt_of_le_of_lt (Nat.sub_le _ _) below
    rw [before, Nat.add_mul_div_left _ _ sim.perCell_pos, Nat.div_eq_of_lt small, Nat.zero_add]

/-- The block of a particle is not behind the last one. -/
theorem div_le_lastBlock (less : i < np) : i / sim.perCell ≤ sim.lastBlock np :=
  Nat.div_le_div_right (by omega)

/-- The last block is the first one, or holds a particle. -/
theorem le_lastBlock (some : np ≠ 0) : t ≤ sim.lastBlock np ↔ t * sim.perCell < np := by
  rw [lastBlock, Nat.le_div_iff_mul_le sim.perCell_pos]
  omega

end Sim

/-- A place in a chain: the cell, and the number of the block. -/
inductive Use where
  /-- In a chain of the array `cells2`. -/
  | old (cell : Coord) (t : Nat)
  /-- In a chain of the array `cells`. -/
  | new (cell : Coord) (t : Nat)
  deriving DecidableEq

/-- The arrays are swapped for the next frame. -/
def Use.swap : Use → Use
  | .old cell t => .new cell t
  | .new cell t => .old cell t

/-- The chains of the array `cells`, which begins at `base`, while particles are put into them: the
blocks of each chain, as many as its particles need, and the ledger of the blocks. -/
structure Filling {α : Type} (sim : Sim) (base : Nat) (store : Store α)
    (holder : Addr → Option (Holder Nat Use)) (dest : Coord → Nat → Addr) (size : Coord → Nat) :
    Prop where
  /-- Each block has one holder. -/
  held : store.pools.Held sim.Apart holder
  /-- The counts of the cells. -/
  count : ∀ {cell}, sim.Inside cell → store.cnumPars (sim.index cell) = size cell
  /-- A chain starts at the entry of its cell. -/
  head : ∀ cell, dest cell 0 = sim.destAt base (sim.index cell)
  /-- The blocks of a chain are in use for it. -/
  chain : ∀ {cell t}, sim.Inside cell → t ≤ sim.lastBlock (size cell) →
    holder (dest cell t) = some (.use (.new cell t))
  /-- A block points to the next one. -/
  linked : ∀ {cell t}, sim.Inside cell → t < sim.lastBlock (size cell) →
    store.mem.next (dest cell t) = some (dest cell (t + 1))
  /-- The last block has a null link. -/
  last : ∀ {cell}, sim.Inside cell →
    store.mem.next (dest cell (sim.lastBlock (size cell))) = none
  /-- The last block is known. -/
  lastCell : ∀ {cell}, sim.Inside cell →
    store.lastCells (sim.index cell) = dest cell (sim.lastBlock (size cell))

namespace Filling

variable {α : Type} {sim : Sim} {base : Nat} {store next : Store α}
  {holder : Addr → Option (Holder Nat Use)} {dest : Coord → Nat → Addr} {size : Coord → Nat}

/-- A block of one chain is not in another place. -/
theorem unique (filling : Filling sim base store holder dest size) {cell other : Coord}
    {t t' : Nat} (inside : sim.Inside cell) (inside' : sim.Inside other)
    (within : t ≤ sim.lastBlock (size cell)) (within' : t' ≤ sim.lastBlock (size other))
    (same : dest cell t = dest other t') : cell = other ∧ t = t' := by
  have first := filling.chain inside within
  have second := filling.chain inside' within'
  rw [same, second] at first
  cases first
  exact ⟨rfl, rfl⟩

/-- One more particle is counted. -/
theorem count_succ (filling : Filling sim base store holder dest size) {c cell : Coord}
    (inside : sim.Inside c) (insideCell : sim.Inside cell) :
    Function.update store.cnumPars (sim.index c) (size c + 1) (sim.index cell) =
      Function.update size c (size c + 1) cell := by
  by_cases same : cell = c
  · rw [same, Function.update_self, Function.update_self]
  · rw [Function.update_of_ne same, Function.update_of_ne, filling.count insideCell]
    exact fun indices => same (Sim.index_injective insideCell inside indices)

/-- The last blocks of the other cells. -/
theorem lastBlock_of_ne {c cell : Coord} (apart : cell ≠ c) :
    sim.lastBlock (Function.update size c (size c + 1) cell) = sim.lastBlock (size cell) := by
  rw [Function.update_of_ne apart]

/-- A slot in the last block. -/
theorem fillSlot (filling : Filling sim base store holder dest size) {c : Coord}
    (inside : sim.Inside c) (stays : size c / sim.perCell = sim.lastBlock (size c)) :
    Filling sim base
      { store with cnumPars := Function.update store.cnumPars (sim.index c) (size c + 1) }
      holder dest (Function.update size c (size c + 1)) := by
  have same : ∀ cell, sim.lastBlock (Function.update size c (size c + 1) cell) =
      sim.lastBlock (size cell) := by
    intro cell
    by_cases same : cell = c
    · rw [same, Function.update_self, Sim.lastBlock_succ, stays]
    · exact lastBlock_of_ne same
  refine ⟨filling.held, filling.count_succ inside, filling.head, ?_, ?_, ?_, ?_⟩
  · intro cell t insideCell within
    rw [same] at within
    exact filling.chain insideCell within
  · intro cell t insideCell within
    rw [same] at within
    exact filling.linked insideCell within
  · intro cell insideCell
    rw [same]
    exact filling.last insideCell
  · intro cell insideCell
    rw [same]
    exact filling.lastCell insideCell

/-- The chains with one more block for a cell. -/
def extend (sim : Sim) (dest : Coord → Nat → Addr) (size : Coord → Nat) (c : Coord)
    (block : Addr) : Coord → Nat → Addr :=
  Function.update dest c (Function.update (dest c) (size c / sim.perCell) block)

section Extend

variable {c cell : Coord} {t : Nat} {block : Addr}
  {holder' : Addr → Option (Holder Nat Use)}

/-- The blocks before it stay. -/
theorem extend_of_le (opens : size c / sim.perCell = sim.lastBlock (size c) + 1)
    (within : t ≤ sim.lastBlock (size cell)) :
    extend sim dest size c block cell t = dest cell t := by
  unfold extend
  by_cases same : cell = c
  · subst same
    rw [Function.update_self, Function.update_of_ne (by omega)]
  · rw [Function.update_of_ne same]

/-- The block comes last. -/
@[simp] theorem extend_last : extend sim dest size c block c (size c / sim.perCell) = block := by
  rw [extend, Function.update_self, Function.update_self]

/-- The chain of the cell is one block longer. -/
theorem lastBlock_self (opens : size c / sim.perCell = sim.lastBlock (size c) + 1) :
    sim.lastBlock (Function.update size c (size c + 1) c) = sim.lastBlock (size c) + 1 := by
  rw [Function.update_self, Sim.lastBlock_succ, opens]

/-- Only the link of the block that was the last one changes. -/
theorem link_of_ne (filling : Filling sim base store holder dest size) (inside : sim.Inside c)
    (insideCell : sim.Inside cell) (within : t ≤ sim.lastBlock (size cell))
    (apart : dest cell t ≠ block) (earlier : (cell, t) ≠ (c, sim.lastBlock (size c))) :
    Function.update (Function.update store.mem.next block none)
      (dest c (sim.lastBlock (size c))) (some block) (dest cell t) =
        store.mem.next (dest cell t) := by
  rw [Function.update_of_ne, Function.update_of_ne apart]
  intro same
  obtain ⟨rfl, rfl⟩ := filling.unique insideCell inside within le_rfl same
  exact earlier rfl

/-- A block from a pool becomes the next one of a chain. -/
theorem openBlock (filling : Filling sim base store holder dest size) (inside : sim.Inside c)
    (opens : size c / sim.perCell = sim.lastBlock (size c) + 1)
    (held : next.pools.Held sim.Apart holder')
    (gave : holder' block = some (.use (.new c (size c / sim.perCell))))
    (others : ∀ a u, holder a = some (.use u) → a ≠ block ∧ holder' a = some (.use u))
    (cnumPars : next.cnumPars = Function.update store.cnumPars (sim.index c) (size c + 1))
    (lastCells : next.lastCells = Function.update store.lastCells (sim.index c) block)
    (links : next.mem.next = Function.update (Function.update store.mem.next block none)
      (dest c (sim.lastBlock (size c))) (some block)) :
    Filling sim base next holder' (extend sim dest size c block)
      (Function.update size c (size c + 1)) := by
  have known : ∀ {cell t}, sim.Inside cell → t ≤ sim.lastBlock (size cell) →
      dest cell t ≠ block ∧ holder' (dest cell t) = some (.use (.new cell t)) :=
    fun insideCell within => others _ _ (filling.chain insideCell within)
  have longer := lastBlock_self opens
  refine ⟨held, fun insideCell => ?_, fun cell => ?_, fun {cell t} insideCell within => ?_,
    fun {cell t} insideCell within => ?_, fun {cell} insideCell => ?_,
    fun {cell} insideCell => ?_⟩
  · rw [cnumPars]
    exact filling.count_succ inside insideCell
  · rw [extend_of_le opens (Nat.zero_le _), filling.head]
  · by_cases same : cell = c
    · subst same
      rw [longer] at within
      rcases Nat.lt_or_ge t (sim.lastBlock (size cell) + 1) with before | here
      · rw [extend_of_le opens (by omega)]
        exact (known insideCell (by omega)).2
      · obtain rfl : t = size cell / sim.perCell := by omega
        rw [extend_last]
        exact gave
    · rw [lastBlock_of_ne same] at within
      rw [extend_of_le opens within]
      exact (known insideCell within).2
  · rw [links]
    by_cases same : cell = c
    · subst same
      rw [longer] at within
      rw [extend_of_le opens (show t ≤ sim.lastBlock (size cell) by omega)]
      by_cases before : t < sim.lastBlock (size cell)
      · rw [extend_of_le opens (by omega), filling.link_of_ne insideCell insideCell (by omega)
          (known insideCell (by omega)).1, filling.linked insideCell before]
        intro same
        have numbers := congrArg Prod.snd same
        dsimp only at numbers
        omega
      · obtain rfl : t = sim.lastBlock (size cell) := by omega
        rw [Function.update_self, ← opens, extend_last]
    · rw [lastBlock_of_ne same] at within
      rw [extend_of_le opens (show t ≤ sim.lastBlock (size cell) by omega),
        extend_of_le opens (by omega), filling.link_of_ne inside insideCell (by omega)
          (known insideCell (by omega)).1, filling.linked insideCell within]
      exact fun equal => same (congrArg Prod.fst equal)
  · rw [links]
    by_cases same : cell = c
    · subst same
      rw [longer, ← opens, extend_last, Function.update_of_ne, Function.update_self]
      exact fun equal => (known insideCell le_rfl).1 equal.symm
    · rw [lastBlock_of_ne same, extend_of_le opens le_rfl, filling.link_of_ne inside insideCell
        le_rfl (known insideCell le_rfl).1, filling.last insideCell]
      exact fun equal => same (congrArg Prod.fst equal)
  · rw [lastCells]
    by_cases same : cell = c
    · subst same
      rw [longer, ← opens, extend_last, Function.update_self]
    · rw [lastBlock_of_ne same, extend_of_le opens le_rfl, Function.update_of_ne,
        filling.lastCell insideCell]
      exact fun indices => same (Sim.index_injective insideCell inside indices)

end Extend

/-- Taking the next slot of a cell keeps the chains. The slot is the one of the next number in the
chain; the old chains and the particles are as before. -/
theorem takeSlot (filling : Filling sim base store holder dest size) {tid : Nat} {c : Coord}
    {block : Addr} {fresh : List Addr} {slot : Slot} (inside : sim.Inside c)
    (taken : store.takeSlot sim tid (sim.index c) block fresh = some (slot, next)) :
    ∃ holder' dest',
      Filling sim base next holder' dest' (Function.update size c (size c + 1)) ∧
      slot = (dest' c (size c / sim.perCell), size c % sim.perCell) ∧
      (∀ cell t, t ≤ sim.lastBlock (size cell) → dest' cell t = dest cell t) ∧
      (∀ a cell t, holder a = some (.use (.old cell t)) →
        holder' a = some (.use (.old cell t)) ∧ next.mem.next a = store.mem.next a) ∧
      next.mem.particle = store.mem.particle := by
  unfold Store.takeSlot at taken
  dsimp only at taken
  rw [filling.count inside, filling.lastCell inside] at taken
  split at taken
  case isTrue full =>
    have opens := Sim.div_of_full full.1 full.2
    obtain ⟨given, got, taken⟩ := Option.bind_eq_some_iff.mp taken
    obtain ⟨pools, granted, got⟩ := Option.bind_eq_some_iff.mp got
    cases got
    cases taken
    obtain ⟨holder', held, gave, others⟩ := filling.held.grant sim.not_apart granted
      (.new c (size c / sim.perCell))
    refine ⟨holder', extend sim dest size c block,
      filling.openBlock inside opens held gave others rfl rfl rfl, ?_,
      fun cell t => extend_of_le opens, fun a cell t used => ?_, rfl⟩
    · rw [extend_last]
    · obtain ⟨distinct, same⟩ := others _ _ used
      refine ⟨same, ?_⟩
      dsimp only [Mem.next_setNext]
      rw [Function.update_of_ne, Function.update_of_ne distinct]
      rintro rfl
      rw [filling.chain inside le_rfl] at used
      cases used
  case isFalse room =>
    have stays := Sim.div_of_room room
    cases taken
    refine ⟨holder, dest, filling.fillSlot inside stays, ?_, fun _ _ _ => rfl,
      fun _ _ _ used => ⟨used, rfl⟩, rfl⟩
    rw [stays]

/-- A block of an old chain comes back to a pool. -/
theorem returncell (filling : Filling sim base store holder dest size) {tid t : Nat}
    {cell : Coord} {block : Addr} (used : holder block = some (.use (.old cell t)))
    (link : Option Addr) :
    Filling sim base (store.returncell tid block link)
      (Function.update holder block (some (.pool tid))) dest size := by
  have known : ∀ {cell t}, sim.Inside cell → t ≤ sim.lastBlock (size cell) →
      dest cell t ≠ block := by
    intro cell t inside within same
    have mine := filling.chain inside within
    rw [same, used] at mine
    cases mine
  refine ⟨filling.held.giveBack used, filling.count, filling.head, ?_, ?_, ?_, filling.lastCell⟩
  · intro cell t inside within
    rw [Function.update_of_ne (known inside within)]
    exact filling.chain inside within
  · intro cell t inside within
    dsimp only [Store.returncell, Mem.next_setNext]
    rw [Function.update_of_ne (known inside (by omega))]
    exact filling.linked inside within
  · intro cell inside
    dsimp only [Store.returncell, Mem.next_setNext]
    rw [Function.update_of_ne (known inside le_rfl)]
    exact filling.last inside

/-- A particle that is copied changes no chain. -/
theorem copyParticle (filling : Filling sim base store holder dest size) (slot source : Slot) :
    Filling sim base { store with mem := store.mem.copyParticle slot source } holder dest size :=
  ⟨filling.held, filling.count, filling.head, filling.chain, filling.linked, filling.last,
    filling.lastCell⟩

end Filling

/-- A valid particle grid with chains from the array `cells2`, and what the next frame needs: the
entries of the array `cells`, which begins at `base`, and the blocks of the pools have no other
use. -/
structure Valid {α : Type} (sim : Sim) (base : Nat) (store : Store α) extends
    Chains sim store.mem.next where
  /-- The holders of the blocks. -/
  holder : Addr → Option (Holder Nat Use)
  /-- Each block has one holder. -/
  held : store.pools.Held sim.Apart holder
  /-- The last block of a chain has a null link. -/
  last : ∀ cell, sim.Inside cell →
    store.mem.next (block cell (sim.lastBlock (sim.cnumPars (sim.index cell)))) = none
  /-- The blocks of a chain are in use for it. -/
  chain : ∀ cell, sim.Inside cell → ∀ t ≤ sim.lastBlock (sim.cnumPars (sim.index cell)),
    holder (block cell t) = some (.use (.old cell t))
  /-- The entries of the array `cells` are free for the new chains. -/
  spare : ∀ cell, sim.Inside cell →
    holder (sim.destAt base (sim.index cell)) = some (.use (.new cell 0))

section Clear

variable {α : Type} {sim : Sim} {base : Nat} {store : Store α}

/-- `ClearParticlesMT` as one loop over the cells of all grids. -/
theorem clearParticles_eq : store.clearParticles sim base =
    (sim.grids.flatMap Grid.cells).foldl (fun store cell =>
      store.clearCell sim base (sim.index cell)) store := by
  rw [List.foldl_flatMap]
  rfl

/-- `ClearParticlesMT` empties the chains of the array `cells`. -/
theorem cleared (partitioned : sim.Partitioned) {cell : Coord} (inside : sim.Inside cell) :
    (store.clearParticles sim base).cnumPars (sim.index cell) = 0 ∧
    (store.clearParticles sim base).mem.next (sim.destAt base (sim.index cell)) = none ∧
    (store.clearParticles sim base).lastCells (sim.index cell) =
      sim.destAt base (sim.index cell) := by
  have member := partitioned.mem.mpr inside
  rw [clearParticles_eq]
  have counts : ∀ cells : List Coord, (cells.foldl (fun store cell =>
      store.clearCell sim base (sim.index cell)) store).cnumPars =
        cells.foldl (fun table cell => Function.update table (sim.index cell) 0)
          store.cnumPars :=
    fun _ => (List.foldl_hom Store.cnumPars fun _ _ => rfl).symm
  have links : ∀ cells : List Coord, (cells.foldl (fun store cell =>
      store.clearCell sim base (sim.index cell)) store).mem.next =
        cells.foldl (fun table cell =>
          Function.update table (sim.destAt base (sim.index cell)) none) store.mem.next :=
    fun _ => (List.foldl_hom (fun store : Store α => store.mem.next) fun _ _ => rfl).symm
  have lasts : ∀ cells : List Coord, (cells.foldl (fun store cell =>
      store.clearCell sim base (sim.index cell)) store).lastCells =
        cells.foldl (fun table cell =>
          Function.update table (sim.index cell) (sim.destAt base (sim.index cell)))
            store.lastCells :=
    fun _ => (List.foldl_hom Store.lastCells fun _ _ => rfl).symm
  rw [counts, links, lasts]
  exact ⟨foldl_update _ (fun _ _ _ => rfl) ⟨cell, member, rfl⟩,
    foldl_update _ (fun _ _ _ => rfl) ⟨cell, member, rfl⟩,
    foldl_update _ (fun _ _ same => by rw [same]) ⟨cell, member, rfl⟩⟩

/-- `ClearParticlesMT` writes to the entries of the array `cells` only. -/
theorem clear_frame (partitioned : sim.Partitioned) :
    (store.clearParticles sim base).pools = store.pools ∧
    (store.clearParticles sim base).mem.particle = store.mem.particle ∧
    ∀ a, (∀ cell, sim.Inside cell → a ≠ sim.destAt base (sim.index cell)) →
      (store.clearParticles sim base).mem.next a = store.mem.next a := by
  rw [clearParticles_eq]
  refine foldl_keeps (fun state : Store α => state.pools = store.pools ∧
    state.mem.particle = store.mem.particle ∧
    ∀ a, (∀ cell, sim.Inside cell → a ≠ sim.destAt base (sim.index cell)) →
      state.mem.next a = store.mem.next a) _ ?_ _ ⟨rfl, rfl, fun _ _ => rfl⟩
  rintro state ⟨pools, particles, links⟩ cell member
  refine ⟨pools, particles, fun a away => ?_⟩
  dsimp only [Store.clearCell, Mem.next_setNext]
  rw [Function.update_of_ne (away cell (partitioned.mem.mp member))]
  exact links a away

end Clear

namespace Walker

/-- The number of particles of the current cell that have slots. -/
def taken (walker : Walker) : Nat := walker.j + if walker.slot.isSome then 1 else 0

/-- The thread has not yet taken a slot for a particle of its cells. -/
def Ahead (walker : Walker) (id : ParticleId) : Prop :=
  match walker.cells with
  | [] => False
  | source :: rest => (id.1 = source ∧ walker.taken ≤ id.2) ∨ id.1 ∈ rest

/-- The thread has taken a slot for a particle, and has not yet copied the particle to it. -/
def Pending (walker : Walker) (id : ParticleId) : Prop :=
  walker.cells.head? = some id.1 ∧ walker.j = id.2 ∧ walker.slot.isSome

/-- The thread has not yet passed a block in a chain of its cells. -/
def Keeps (sim : Sim) (walker : Walker) (cell : Coord) (t : Nat) : Prop :=
  match walker.cells with
  | [] => False
  | source :: rest => (cell = source ∧ walker.j / sim.perCell ≤ t) ∨ cell ∈ rest

/-- A walk has the particles of its cells ahead. -/
@[simp] theorem ahead_walk {sim : Sim} {cells : List Coord} {id : ParticleId} :
    (sim.walk cells).Ahead id ↔ id.1 ∈ cells := by
  cases cells with
  | nil => simp [Ahead, Sim.walk]
  | cons source rest => simp [Ahead, Sim.walk, taken]

/-- A walk keeps the particles of its cells. -/
@[simp] theorem keeps_walk {sim : Sim} {cells : List Coord} {cell : Coord} {t : Nat} :
    (sim.walk cells).Keeps sim cell t ↔ cell ∈ cells := by
  cases cells with
  | nil => simp [Keeps, Sim.walk]
  | cons source rest => simp [Keeps, Sim.walk]

end Walker

namespace Sim

variable (sim : Sim)

/-- The thread that has a cell. -/
def thread (cell : Coord) : Nat := sim.grids.findIdx fun grid => decide (cell ∈ grid.cells)

variable {sim} {cell : Coord} {tid : Nat}

/-- The cells of a thread are those of its grid. -/
theorem mem_cellsOf : cell ∈ sim.cellsOf tid ↔
    ∃ h : tid < sim.grids.length, cell ∈ (sim.grids[tid]).cells := by
  unfold cellsOf
  by_cases h : tid < sim.grids.length
  · simp [h]
  · simp [h]

/-- A cell belongs to its thread only. -/
theorem thread_eq (partitioned : sim.Partitioned) (member : cell ∈ sim.cellsOf tid) :
    sim.thread cell = tid := by
  obtain ⟨h, here⟩ := mem_cellsOf.mp member
  have below : sim.thread cell < sim.grids.length :=
    List.findIdx_lt_length_of_exists ⟨_, List.getElem_mem h, by simpa using here⟩
  have found := List.findIdx_getElem (w := below)
  rw [decide_eq_true_eq] at found
  exact partitioned.thread_unique below h found here

/-- A cell of the domain has a thread. -/
theorem mem_thread (partitioned : sim.Partitioned) (inside : sim.Inside cell) :
    cell ∈ sim.cellsOf (sim.thread cell) := by
  obtain ⟨grid, member, here⟩ := List.mem_flatMap.mp (partitioned.mem.mpr inside)
  obtain ⟨tid, h, rfl⟩ := List.getElem_of_mem member
  have mine : cell ∈ sim.cellsOf tid := mem_cellsOf.mpr ⟨h, here⟩
  rw [thread_eq partitioned mine]
  exact mine

/-- The cells of the threads lie in the domain. -/
theorem inside_of_mem (partitioned : sim.Partitioned) (member : cell ∈ sim.cellsOf tid) :
    sim.Inside cell := by
  obtain ⟨h, here⟩ := mem_cellsOf.mp member
  exact partitioned.inside (List.getElem_mem h) here

/-- A thread has each of its cells once. -/
theorem cellsOf_nodup (tid : Nat) : (sim.cellsOf tid).Nodup := by
  unfold cellsOf
  cases sim.grids[tid]? with
  | none => exact List.nodup_nil
  | some grid => exact cells_nodup grid

end Sim

section Invariant

variable {α : Type} [Sub α] [Div α] {sim : Sim} {base : Nat} {store : Store α}

/-- The particles for which slots have been taken, by the cells and in the order of the slots: each
particle that its thread has passed is in the cell of its position, once, and is stored there when
it has been copied. -/
structure Placing (space : Space α) (valid : Valid sim base store) (dest : Coord → Nat → Addr)
    (placed : Coord → List ParticleId) (particle : Slot → Particle α) (walkers : Nat → Walker) :
    Prop where
  /-- A particle that has been passed is in the cell of its position. -/
  mem_placed : ∀ {cell}, sim.Inside cell → ∀ {id}, id ∈ placed cell ↔ sim.Holds id ∧
    sim.cellOf space (store.mem.p (valid.slot id)) = cell ∧
    ¬(walkers (sim.thread id.1)).Ahead id
  /-- It is there once. -/
  nodup : ∀ {cell}, sim.Inside cell → (placed cell).Nodup
  /-- It is stored in its slot when it has been copied. -/
  written : ∀ {cell}, sim.Inside cell → ∀ {i id}, (placed cell)[i]? = some id →
    ¬(walkers (sim.thread id.1)).Pending id →
      particle (dest cell (i / sim.perCell), i % sim.perCell) =
        store.mem.particle (valid.slot id)
  /-- A thread passes its cells in order. -/
  suffix : ∀ tid, (walkers tid).cells <:+ sim.cellsOf tid
  /-- A thread reads the block of its particle, as long as there is one. -/
  pointer : ∀ {tid source rest}, (walkers tid).cells = source :: rest →
    (walkers tid).j ≤ sim.cnumPars (sim.index source) ∧
    (walkers tid).cell2 =
      if (walkers tid).j / sim.perCell ≤ sim.lastBlock (sim.cnumPars (sim.index source)) then
        some (valid.block source ((walkers tid).j / sim.perCell))
      else none
  /-- The slot that a thread has taken is the one of its particle. -/
  slot : ∀ {tid source rest slot}, (walkers tid).cells = source :: rest →
    (walkers tid).slot = some slot →
    (walkers tid).j < sim.cnumPars (sim.index source) ∧
    ∃ cell i, sim.Inside cell ∧ (placed cell)[i]? = some (source, (walkers tid).j) ∧
      slot = (dest cell (i / sim.perCell), i % sim.perCell)

/-- The old chains: what a thread has not passed is as it was, and the overflow blocks that it has
passed have been given back. -/
structure Leaving (valid : Valid sim base store) (holder : Addr → Option (Holder Nat Use))
    (mem : Mem α) (walkers : Nat → Walker) (returned : List Addr) : Prop where
  /-- A block that has not been passed is in use for its chain. -/
  used : ∀ {cell t}, sim.Inside cell → t ≤ sim.lastBlock (sim.cnumPars (sim.index cell)) →
    (walkers (sim.thread cell)).Keeps sim cell t →
    holder (valid.block cell t) = some (.use (.old cell t))
  /-- Its link is as it was. -/
  next : ∀ {cell t}, sim.Inside cell → t ≤ sim.lastBlock (sim.cnumPars (sim.index cell)) →
    (walkers (sim.thread cell)).Keeps sim cell t →
    mem.next (valid.block cell t) = store.mem.next (valid.block cell t)
  /-- Its particles are as they were. -/
  particle : ∀ {cell t}, sim.Inside cell → t ≤ sim.lastBlock (sim.cnumPars (sim.index cell)) →
    (walkers (sim.thread cell)).Keeps sim cell t →
    ∀ k, mem.particle (valid.block cell t, k) = store.mem.particle (valid.block cell t, k)
  /-- The entries of the array `cells2` are not given back. -/
  heads : ∀ {cell}, sim.Inside cell → holder (valid.block cell 0) = some (.use (.old cell 0))
  /-- A block is given back once. -/
  nodup : returned.Nodup
  /-- The blocks that have been given back are the overflow blocks that have been passed. -/
  mem_returned : ∀ {a}, a ∈ returned ↔ ∃ cell t, sim.Inside cell ∧ 0 < t ∧
    t ≤ sim.lastBlock (sim.cnumPars (sim.index cell)) ∧
    ¬(walkers (sim.thread cell)).Keeps sim cell t ∧ a = valid.block cell t

/-- The invariant of `RebuildGridMT`. -/
structure Inv (space : Space α) (valid : Valid sim base store)
    (holder : Addr → Option (Holder Nat Use)) (dest : Coord → Nat → Addr)
    (placed : Coord → List ParticleId) (s : Rebuild α) : Prop where
  /-- The new chains and the pools. -/
  filling : Filling sim base s.toStore holder dest fun cell => (placed cell).length
  /-- The particles that have been passed. -/
  placing : Placing space valid dest placed s.mem.particle s.walkers
  /-- The old chains. -/
  leaving : Leaving valid holder s.mem s.walkers s.returned

namespace Valid

variable (valid : Valid sim base store)

omit [Sub α] [Div α] in
/-- A block of one old chain is not in another place. -/
theorem block_unique {cell other : Coord} {t t' : Nat} (inside : sim.Inside cell)
    (inside' : sim.Inside other)
    (within : t ≤ sim.lastBlock (sim.cnumPars (sim.index cell)))
    (within' : t' ≤ sim.lastBlock (sim.cnumPars (sim.index other)))
    (same : valid.block cell t = valid.block other t') : cell = other ∧ t = t' := by
  have first := valid.chain cell inside t within
  have second := valid.chain other inside' t' within'
  rw [same, second] at first
  cases first
  exact ⟨rfl, rfl⟩

omit [Sub α] [Div α] in
/-- The link of a block leads to the next one, if there is one. -/
theorem next_eq {cell : Coord} {t : Nat} (inside : sim.Inside cell)
    (within : t ≤ sim.lastBlock (sim.cnumPars (sim.index cell))) :
    store.mem.next (valid.block cell t) =
      if t + 1 ≤ sim.lastBlock (sim.cnumPars (sim.index cell)) then
        some (valid.block cell (t + 1))
      else none := by
  split
  · rename_i more
    refine valid.linked cell inside t ((Sim.le_lastBlock fun none => ?_).mp more)
    rw [none, Sim.lastBlock, Nat.zero_sub, Nat.zero_div] at more
    omega
  · have last : t = sim.lastBlock (sim.cnumPars (sim.index cell)) := by omega
    rw [last]
    exact valid.last cell inside

/-- The begin of a rebuild. -/
theorem inv_start (space : Space α) (partitioned : sim.Partitioned) :
    Inv space valid valid.holder (fun cell _ => sim.destAt base (sim.index cell)) (fun _ => [])
      (.start sim base store) := by
  have frame : (store.clearParticles sim base).pools = store.pools ∧ _ ∧ _ :=
    clear_frame partitioned
  have away : ∀ {cell t}, sim.Inside cell →
      t ≤ sim.lastBlock (sim.cnumPars (sim.index cell)) → ∀ other, sim.Inside other →
        valid.block cell t ≠ sim.destAt base (sim.index other) := by
    intro cell t inside within other inside' same
    have mine := valid.chain cell inside t within
    rw [same, valid.spare other inside'] at mine
    cases mine
  have empty : sim.lastBlock 0 = 0 := by
    rw [Sim.lastBlock, Nat.zero_sub, Nat.zero_div]
  refine ⟨⟨?_, ?_, fun _ => rfl, ?_, ?_, ?_, ?_⟩, ⟨?_, ?_, ?_, ?_, ?_, ?_⟩,
    ⟨?_, ?_, ?_, ?_, List.nodup_nil, ?_⟩⟩
  · rw [show (Rebuild.start sim base store).pools = store.pools from frame.1]
    exact valid.held
  · intro cell inside
    exact (cleared partitioned inside).1
  · intro cell t inside within
    rw [List.length_nil, empty] at within
    rw [Nat.le_zero.mp within]
    exact valid.spare cell inside
  · intro cell t inside within
    rw [List.length_nil, empty] at within
    omega
  · intro cell inside
    exact (cleared partitioned inside).2.1
  · intro cell inside
    exact (cleared partitioned inside).2.2
  · intro cell inside id
    simp only [List.not_mem_nil, false_iff, not_and, not_not]
    intro holds _
    exact Walker.ahead_walk.mpr (Sim.mem_thread partitioned holds.1)
  · exact fun _ => List.nodup_nil
  · intro cell inside i id found
    cases found
  · exact fun tid => List.suffix_rfl
  · intro tid source rest here
    have head : (Rebuild.start sim base store).walkers tid = sim.walk (source :: rest) :=
      congrArg sim.walk here
    rw [head]
    refine ⟨Nat.zero_le _, ?_⟩
    simp [Sim.walk, valid.head]
  · intro tid source rest slot here taken
    cases taken
  · intro cell t inside within _
    exact valid.chain cell inside t within
  · intro cell t inside within _
    exact frame.2.2 _ (away inside within)
  · intro cell t inside within _ k
    exact congrFun frame.2.1 _
  · intro cell inside
    exact valid.chain cell inside 0 (Nat.zero_le _)
  · intro a
    constructor
    · intro member
      cases member
    · rintro ⟨cell, t, inside, -, -, passed, -⟩
      exact absurd (Walker.keeps_walk.mpr (Sim.mem_thread partitioned inside)) passed

end Valid

namespace Rebuild

variable {space : Space α} {s next : Rebuild α} {tid : Nat}

/-- What `insert` does. -/
theorem insert_cases {block : Addr} {fresh : List Addr}
    (moves : s.insert sim space tid block fresh = some next) :
    ∃ source rest cell2 j slot store', s.walkers tid = ⟨source :: rest, some cell2, j, none⟩ ∧
      j < sim.cnumPars (sim.index source) ∧
      s.toStore.takeSlot sim tid
        (sim.index (sim.cellOf space (s.mem.p (cell2, j % sim.perCell)))) block fresh =
          some (slot, store') ∧
      next = setWalker tid ⟨source :: rest, some cell2, j, some slot⟩
        { s with toStore := store' } := by
  unfold insert at moves
  split at moves
  case h_2 => cases moves
  rename_i source rest cell2 j walker
  split at moves
  case isFalse => cases moves
  rename_i less
  obtain ⟨⟨slot, store'⟩, taken, moves⟩ := Option.bind_eq_some_iff.mp moves
  cases moves
  exact ⟨source, rest, cell2, j, slot, store', walker, less, taken, rfl⟩

omit [Sub α] [Div α] in
/-- What `copy` does. -/
theorem copy_cases {link : Option Addr} (moves : s.copy sim tid link = some next) :
    ∃ source rest cell2 j slot, s.walkers tid = ⟨source :: rest, some cell2, j, some slot⟩ ∧
      next =
        let s := { s with mem := s.mem.copyParticle slot (cell2, j % sim.perCell) }
        if j % sim.perCell = sim.perCell - 1 then
          (s.setWalker tid ⟨source :: rest, s.mem.next cell2, j + 1, none⟩).returnOverflow sim tid
            (sim.index source) cell2 link
        else s.setWalker tid ⟨source :: rest, some cell2, j + 1, none⟩ := by
  unfold copy at moves
  split at moves
  case h_2 => cases moves
  rename_i source rest cell2 j slot walker
  refine ⟨source, rest, cell2, j, slot, walker, ?_⟩
  dsimp only at moves ⊢
  split at moves
  · rename_i ends
    rw [if_pos ends]
    cases moves
    rfl
  · rename_i inner
    rw [if_neg inner]
    cases moves
    rfl

omit [Sub α] [Div α] in
/-- What `leave` does. -/
theorem leave_cases {link : Option Addr} (moves : s.leave sim tid link = some next) :
    ∃ source rest cell2 j, s.walkers tid = ⟨source :: rest, cell2, j, none⟩ ∧
      sim.cnumPars (sim.index source) ≤ j ∧
      next =
        match cell2 with
        | some cell2 => (s.setWalker tid (sim.walk rest)).returnOverflow sim tid (sim.index source)
            cell2 link
        | none => s.setWalker tid (sim.walk rest) := by
  unfold leave at moves
  split at moves
  case h_2 => cases moves
  rename_i source rest cell2 j walker
  split at moves
  case isTrue => cases moves
  rename_i passed
  refine ⟨source, rest, cell2, j, walker, Nat.le_of_not_lt passed, ?_⟩
  dsimp only at moves
  split at moves
  · cases moves
    rfl
  · cases moves
    rfl

end Rebuild

variable {space : Space α} {valid : Valid sim base store}
  {holder : Addr → Option (Holder Nat Use)} {dest : Coord → Nat → Addr}
  {placed : Coord → List ParticleId} {s next : Rebuild α} {tid : Nat}

/-- The current cell of a thread is one of its cells, and does not come again. -/
theorem Placing.current {particle : Slot → Particle α} {walkers : Nat → Walker}
    (placing : Placing space valid dest placed particle walkers) {source : Coord}
    {rest : List Coord} (here : (walkers tid).cells = source :: rest) :
    source ∈ sim.cellsOf tid ∧ source ∉ rest ∧ rest <:+ sim.cellsOf tid := by
  have suffix := placing.suffix tid
  rw [here] at suffix
  have all : (sim.cellsOf tid).Nodup := Sim.cellsOf_nodup tid
  have nodup := all.sublist suffix.sublist
  exact ⟨suffix.subset List.mem_cons_self, (List.nodup_cons.mp nodup).1,
    (List.suffix_cons source rest).trans suffix⟩

/-- A thread takes a slot for its particle. -/
def Walker.setSlot (slot : Slot) (walker : Walker) : Walker := { walker with slot := some slot }

/-- The particle for which a thread takes a slot is passed, and no other one. -/
theorem Walker.ahead_setSlot {walker : Walker} {source : Coord} {rest : List Coord}
    (cells : walker.cells = source :: rest) (distinct : source ∉ rest)
    (idle : walker.slot = none) (slot : Slot) (id : ParticleId) :
    (walker.setSlot slot).Ahead id ↔ walker.Ahead id ∧ id ≠ (source, walker.j) := by
  obtain ⟨cell, n⟩ := id
  simp only [Ahead, setSlot, taken, cells, idle, Option.isSome_some, Option.isSome_none, if_true,
    Bool.false_eq_true, if_false, ne_eq, Prod.mk.injEq]
  by_cases here : cell = source
  · subst here
    simp only [distinct, or_false, true_and]
    omega
  · simp [here]

/-- A particle that is put behind the others in its cell. -/
theorem getElem?_update_concat {c cell : Coord} {id new : ParticleId} {i : Nat}
    (found : (Function.update placed c (placed c ++ [new]) cell)[i]? = some id) :
    (placed cell)[i]? = some id ∨ id = new := by
  by_cases same : cell = c
  · subst same
    rw [Function.update_self] at found
    rcases Nat.lt_or_ge i (placed cell).length with short | long
    · rw [List.getElem?_append_left short] at found
      exact .inl found
    · rw [List.getElem?_append_right long] at found
      exact .inr (List.mem_singleton.mp (List.mem_of_getElem? found))
  · rw [Function.update_of_ne same] at found
    exact .inl found

/-- The other particles keep their places. -/
theorem getElem?_concat_of_some {c cell : Coord} {id : ParticleId} (new : ParticleId) {i : Nat}
    (found : (placed cell)[i]? = some id) :
    (Function.update placed c (placed c ++ [new]) cell)[i]? = some id := by
  have short := (List.getElem?_eq_some_iff.mp found).1
  by_cases same : cell = c
  · subst same
    rw [Function.update_self, List.getElem?_append_left short, found]
  · rw [Function.update_of_ne same, found]

/-- The particle of a thread is put into the cell of its position, and the thread keeps the
slot. -/
theorem Placing.takeSlot (partitioned : sim.Partitioned) {particle : Slot → Particle α}
    {walkers : Nat → Walker} (placing : Placing space valid dest placed particle walkers)
    {source : Coord} {rest : List Coord} (cells : (walkers tid).cells = source :: rest)
    (idle : (walkers tid).slot = none)
    (less : (walkers tid).j < sim.cnumPars (sim.index source)) {c : Coord}
    (target : sim.cellOf space (store.mem.p (valid.slot (source, (walkers tid).j))) = c)
    {dest' : Coord → Nat → Addr} {slot : Slot}
    (kept : ∀ cell t, t ≤ sim.lastBlock (placed cell).length → dest' cell t = dest cell t)
    (slotEq : slot = (dest' c ((placed c).length / sim.perCell),
      (placed c).length % sim.perCell)) :
    Placing space valid dest'
      (Function.update placed c (placed c ++ [(source, (walkers tid).j)])) particle
      (Function.update walkers tid ((walkers tid).setSlot slot)) := by
  obtain ⟨mine, distinct, -⟩ := placing.current cells
  have inside := Sim.inside_of_mem partitioned mine
  have thread := Sim.thread_eq partitioned mine
  have insideDest : sim.Inside c := target ▸ sim.inside_cellOf space _
  have ahead : ∀ id : ParticleId, (Function.update walkers tid ((walkers tid).setSlot slot)
      (sim.thread id.1)).Ahead id ↔
        (walkers (sim.thread id.1)).Ahead id ∧ id ≠ (source, (walkers tid).j) := by
    intro id
    by_cases same : sim.thread id.1 = tid
    · rw [same, Function.update_self]
      exact Walker.ahead_setSlot cells distinct idle slot id
    · rw [Function.update_of_ne same]
      refine (and_iff_left fun equal => same ?_).symm
      rw [equal]
      exact thread
  have unplaced : (source, (walkers tid).j) ∉ placed c := by
    intro member
    refine ((placing.mem_placed insideDest).mp member).2.2 ?_
    unfold Walker.Ahead
    rw [thread, cells]
    refine .inl ⟨rfl, ?_⟩
    rw [Walker.taken, idle]
    exact le_rfl
  have before : ∀ {cell} {i : Nat} {id}, (placed cell)[i]? = some id →
      dest' cell (i / sim.perCell) = dest cell (i / sim.perCell) :=
    fun found => kept _ _ (Sim.div_le_lastBlock (List.getElem?_eq_some_iff.mp found).1)
  refine ⟨?_, ?_, ?_, ?_, ?_, ?_⟩
  · intro cell insideCell id
    have known : id ∈ placed cell ↔ _ := placing.mem_placed insideCell
    rw [ahead]
    by_cases same : cell = c
    · subst same
      rw [Function.update_self, List.mem_append, known, List.mem_singleton]
      by_cases new : id = (source, (walkers tid).j)
      · rw [new]
        simp only [or_true, ne_eq, not_true_eq_false, and_false, not_false_eq_true, and_true,
          true_iff]
        exact ⟨⟨inside, less⟩, target⟩
      · simp only [new, or_false, ne_eq, not_false_eq_true, and_true]
    · rw [Function.update_of_ne same, known]
      by_cases new : id = (source, (walkers tid).j)
      · rw [new, target]
        simp only [Ne.symm same, false_and, and_false]
      · simp only [new, ne_eq, not_false_eq_true, and_true]
  · intro cell insideCell
    by_cases same : cell = c
    · subst same
      rw [Function.update_self]
      exact (placing.nodup insideCell).append (List.nodup_singleton _)
        fun id member new => unplaced (List.mem_singleton.mp new ▸ member)
    · rw [Function.update_of_ne same]
      exact placing.nodup insideCell
  · intro cell insideCell i id found copied
    rcases getElem?_update_concat found with old | rfl
    · rw [before old]
      refine placing.written insideCell old fun pending => copied ?_
      by_cases same : sim.thread id.1 = tid
      · rw [same] at pending
        rw [Walker.Pending, idle] at pending
        cases pending.2.2
      · rw [Function.update_of_ne same]
        exact pending
    · refine absurd ?_ copied
      rw [thread, Function.update_self]
      exact ⟨by rw [Walker.setSlot, cells]; rfl, rfl, rfl⟩
  · intro t
    by_cases same : t = tid
    · rw [same, Function.update_self]
      exact placing.suffix tid
    · rw [Function.update_of_ne same]
      exact placing.suffix t
  · intro t source' rest' here
    by_cases same : t = tid
    · rw [same, Function.update_self] at here ⊢
      exact placing.pointer here
    · rw [Function.update_of_ne same] at here ⊢
      exact placing.pointer here
  · intro t source' rest' slot' here got
    by_cases same : t = tid
    · rw [same, Function.update_self] at here got ⊢
      cases here.symm.trans cells
      cases got
      refine ⟨less, c, (placed c).length, insideDest, ?_, slotEq⟩
      rw [Function.update_self]
      exact List.getElem?_concat_length
    · rw [Function.update_of_ne same] at here got ⊢
      obtain ⟨more, cell, i, insideCell, found, slotSame⟩ := placing.slot here got
      refine ⟨more, cell, i, insideCell, getElem?_concat_of_some _ found, ?_⟩
      rw [slotSame, before found]

omit [Sub α] [Div α] in
/-- Taking a slot changes no old chain. -/
theorem Leaving.takeSlot {mem mem' : Mem α} {walkers : Nat → Walker} {returned : List Addr}
    (leaving : Leaving valid holder mem walkers returned)
    {holder' : Addr → Option (Holder Nat Use)}
    (olds : ∀ a cell t, holder a = some (.use (.old cell t)) →
      holder' a = some (.use (.old cell t)) ∧ mem'.next a = mem.next a)
    (particles : mem'.particle = mem.particle) (slot : Slot) :
    Leaving valid holder' mem' (Function.update walkers tid ((walkers tid).setSlot slot))
      returned := by
  have same : ∀ t cell n,
      (Function.update walkers tid ((walkers tid).setSlot slot) t).Keeps sim cell n ↔
        (walkers t).Keeps sim cell n := by
    intro t cell n
    by_cases same : t = tid
    · rw [same, Function.update_self]
      rfl
    · rw [Function.update_of_ne same]
  refine ⟨?_, ?_, ?_, ?_, leaving.nodup, ?_⟩
  · intro cell t inside within keeps
    exact (olds _ _ _ (leaving.used inside within ((same _ _ _).mp keeps))).1
  · intro cell t inside within keeps
    have keeps := (same _ _ _).mp keeps
    exact (olds _ _ _ (leaving.used inside within keeps)).2.trans
      (leaving.next inside within keeps)
  · intro cell t inside within keeps k
    exact (congrFun particles _).trans
      (leaving.particle inside within ((same _ _ _).mp keeps) k)
  · intro cell inside
    exact (olds _ _ _ (leaving.heads inside)).1
  · simp only [same]
    exact leaving.mem_returned

/-- Taking a slot keeps the invariant. -/
theorem Inv.insert (partitioned : sim.Partitioned) (inv : Inv space valid holder dest placed s)
    {block : Addr} {fresh : List Addr} (moves : s.insert sim space tid block fresh = some next) :
    ∃ holder' dest' placed', Inv space valid holder' dest' placed' next := by
  obtain ⟨source, rest, cell2, j, slot, store', walker, less, taken, rfl⟩ :=
    Rebuild.insert_cases moves
  have cells : (s.walkers tid).cells = source :: rest := by rw [walker]
  have idle : (s.walkers tid).slot = none := by rw [walker]
  have number : (s.walkers tid).j = j := by rw [walker]
  have next : (⟨source :: rest, some cell2, j, some slot⟩ : Walker) =
      (s.walkers tid).setSlot slot := by rw [walker]; rfl
  obtain ⟨mine, -, -⟩ := inv.placing.current cells
  have inside := Sim.inside_of_mem partitioned mine
  have within : j / sim.perCell ≤ sim.lastBlock (sim.cnumPars (sim.index source)) :=
    Sim.div_le_lastBlock less
  -- the particle is still in its old slot
  have pointer := (inv.placing.pointer cells).2
  rw [walker] at pointer
  dsimp only at pointer
  rw [if_pos within, Option.some.injEq] at pointer
  have keeps : (s.walkers (sim.thread source)).Keeps sim source (j / sim.perCell) := by
    rw [Sim.thread_eq partitioned mine, walker]
    exact .inl ⟨rfl, le_rfl⟩
  have position : s.mem.p (cell2, j % sim.perCell) = store.mem.p (valid.slot (source, j)) := by
    rw [pointer]
    exact congrArg Particle.p (inv.leaving.particle inside within keeps _)
  obtain ⟨c, target⟩ : ∃ c, sim.cellOf space (store.mem.p (valid.slot (source, j))) = c :=
    ⟨_, rfl⟩
  rw [position, target] at taken
  have insideDest : sim.Inside c := target ▸ sim.inside_cellOf space _
  obtain ⟨holder', dest', filling, slotEq, kept, olds, particles⟩ :=
    inv.filling.takeSlot insideDest taken
  rw [← number] at less target
  have placing := inv.placing.takeSlot partitioned cells idle less target kept slotEq
  rw [number] at placing
  have sizes : (fun cell =>
      (Function.update placed c (placed c ++ [(source, j)]) cell).length) =
        Function.update (fun cell => (placed cell).length) c ((placed c).length + 1) := by
    funext cell
    by_cases same : cell = c
    · rw [same, Function.update_self, Function.update_self, List.length_append]
      rfl
    · rw [Function.update_of_ne same, Function.update_of_ne same]
  rw [next]
  refine ⟨holder', dest', Function.update placed c (placed c ++ [(source, j)]), ?_, ?_, ?_⟩
  · rw [sizes]
    exact filling
  · exact particles ▸ placing
  · exact inv.leaving.takeSlot olds particles slot

/-- A thread goes on without taking a slot. -/
theorem Placing.moveOn {particle : Slot → Particle α} {walkers : Nat → Walker}
    (placing : Placing space valid dest placed particle walkers)
    {walker : Walker} (suffix : walker.cells <:+ sim.cellsOf tid)
    (pointer : ∀ {source rest}, walker.cells = source :: rest →
      walker.j ≤ sim.cnumPars (sim.index source) ∧ walker.cell2 =
        if walker.j / sim.perCell ≤ sim.lastBlock (sim.cnumPars (sim.index source)) then
          some (valid.block source (walker.j / sim.perCell))
        else none)
    (idle : walker.slot = none)
    (ahead : ∀ id, sim.Holds id → (walker.Ahead id ↔ (walkers tid).Ahead id))
    (written : ∀ id, (walkers tid).Pending id → ∀ {cell}, sim.Inside cell → ∀ {i : Nat},
      (placed cell)[i]? = some id → particle (dest cell (i / sim.perCell), i % sim.perCell) =
        store.mem.particle (valid.slot id)) :
    Placing space valid dest placed particle (Function.update walkers tid walker) := by
  refine ⟨?_, placing.nodup, ?_, ?_, ?_, ?_⟩
  · intro cell inside id
    rw [placing.mem_placed inside]
    by_cases same : sim.thread id.1 = tid
    · rw [same, Function.update_self]
      exact and_congr_right fun holds => and_congr_right fun _ =>
        not_congr (ahead id holds).symm
    · rw [Function.update_of_ne same]
  · intro cell inside i id found copied
    by_cases pending : (walkers (sim.thread id.1)).Pending id
    · by_cases same : sim.thread id.1 = tid
      · rw [same] at pending
        exact written id pending inside found
      · rw [Function.update_of_ne same] at copied
        exact absurd pending copied
    · exact placing.written inside found pending
  · intro t
    by_cases same : t = tid
    · rw [same, Function.update_self]
      exact suffix
    · rw [Function.update_of_ne same]
      exact placing.suffix t
  · intro t source rest here
    by_cases same : t = tid
    · rw [same, Function.update_self] at here ⊢
      exact pointer here
    · rw [Function.update_of_ne same] at here ⊢
      exact placing.pointer here
  · intro t source rest slot here taken
    by_cases same : t = tid
    · rw [same, Function.update_self, idle] at taken
      cases taken
    · rw [Function.update_of_ne same] at here taken ⊢
      exact placing.slot here taken

omit [Sub α] [Div α] in
/-- A thread goes on without passing an overflow block. -/
theorem Leaving.moveOn {mem : Mem α} {walkers : Nat → Walker} {returned : List Addr}
    (leaving : Leaving valid holder mem walkers returned) {walker : Walker}
    (keeps : ∀ {cell t}, t ≤ sim.lastBlock (sim.cnumPars (sim.index cell)) →
      walker.Keeps sim cell t → (walkers tid).Keeps sim cell t)
    (passed : ∀ {cell t}, 0 < t → t ≤ sim.lastBlock (sim.cnumPars (sim.index cell)) →
      (walkers tid).Keeps sim cell t → walker.Keeps sim cell t) :
    Leaving valid holder mem (Function.update walkers tid walker) returned := by
  have before : ∀ {cell t}, t ≤ sim.lastBlock (sim.cnumPars (sim.index cell)) →
      (Function.update walkers tid walker (sim.thread cell)).Keeps sim cell t →
        (walkers (sim.thread cell)).Keeps sim cell t := by
    intro cell t within kept
    by_cases same : sim.thread cell = tid
    · rw [same, Function.update_self] at kept
      rw [same]
      exact keeps within kept
    · rw [Function.update_of_ne same] at kept
      exact kept
  have after : ∀ {cell t}, 0 < t → t ≤ sim.lastBlock (sim.cnumPars (sim.index cell)) →
      (walkers (sim.thread cell)).Keeps sim cell t →
        (Function.update walkers tid walker (sim.thread cell)).Keeps sim cell t := by
    intro cell t positive within kept
    by_cases same : sim.thread cell = tid
    · rw [same] at kept
      rw [same, Function.update_self]
      exact passed positive within kept
    · rw [Function.update_of_ne same]
      exact kept
  refine ⟨?_, ?_, ?_, leaving.heads, leaving.nodup, ?_⟩
  · exact fun inside within kept => leaving.used inside within (before within kept)
  · exact fun inside within kept => leaving.next inside within (before within kept)
  · exact fun inside within kept => leaving.particle inside within (before within kept)
  · intro a
    rw [leaving.mem_returned]
    constructor
    · rintro ⟨cell, t, inside, positive, within, gone, same⟩
      exact ⟨cell, t, inside, positive, within, fun kept => gone (before within kept), same⟩
    · rintro ⟨cell, t, inside, positive, within, gone, same⟩
      exact ⟨cell, t, inside, positive, within, fun kept => gone (after positive within kept),
        same⟩

omit [Sub α] [Div α] in
/-- A thread passes an overflow block and gives it back. -/
theorem Leaving.release (partitioned : sim.Partitioned) {mem : Mem α} {walkers : Nat → Walker}
    {returned : List Addr} (leaving : Leaving valid holder mem walkers returned) {walker : Walker}
    {source : Coord} {t₀ : Nat} (mine : source ∈ sim.cellsOf tid) (positive : 0 < t₀)
    (within : t₀ ≤ sim.lastBlock (sim.cnumPars (sim.index source)))
    (kept : (walkers tid).Keeps sim source t₀)
    (keeps : ∀ {cell t}, t ≤ sim.lastBlock (sim.cnumPars (sim.index cell)) →
      (walker.Keeps sim cell t ↔ (walkers tid).Keeps sim cell t ∧ (cell, t) ≠ (source, t₀)))
    (link : Option Addr) :
    Leaving valid
      (Function.update holder (valid.block source t₀) (some (.pool tid)))
      (mem.setNext (valid.block source t₀) link) (Function.update walkers tid walker)
      (valid.block source t₀ :: returned) := by
  have inside := Sim.inside_of_mem partitioned mine
  have thread := Sim.thread_eq partitioned mine
  have change : ∀ {cell t}, t ≤ sim.lastBlock (sim.cnumPars (sim.index cell)) →
      ((Function.update walkers tid walker (sim.thread cell)).Keeps sim cell t ↔
        (walkers (sim.thread cell)).Keeps sim cell t ∧ (cell, t) ≠ (source, t₀)) := by
    intro cell t within
    by_cases same : sim.thread cell = tid
    · rw [same, Function.update_self]
      exact keeps within
    · rw [Function.update_of_ne same]
      refine (and_iff_left fun equal => same ?_).symm
      cases equal
      exact thread
  have other : ∀ {cell t}, sim.Inside cell →
      t ≤ sim.lastBlock (sim.cnumPars (sim.index cell)) → (cell, t) ≠ (source, t₀) →
        valid.block cell t ≠ valid.block source t₀ := by
    intro cell t insideCell withinCell distinct same
    obtain ⟨rfl, rfl⟩ := valid.block_unique insideCell inside withinCell within same
    exact distinct rfl
  refine ⟨?_, ?_, ?_, ?_, ?_, ?_⟩
  · intro cell t insideCell withinCell still
    obtain ⟨kept', distinct⟩ := (change withinCell).mp still
    rw [Function.update_of_ne (other insideCell withinCell distinct)]
    exact leaving.used insideCell withinCell kept'
  · intro cell t insideCell withinCell still
    obtain ⟨kept', distinct⟩ := (change withinCell).mp still
    rw [Mem.next_setNext, Function.update_of_ne (other insideCell withinCell distinct)]
    exact leaving.next insideCell withinCell kept'
  · intro cell t insideCell withinCell still k
    exact leaving.particle insideCell withinCell ((change withinCell).mp still).1 k
  · intro cell insideCell
    rw [Function.update_of_ne (other insideCell (Nat.zero_le _) fun equal => ?_)]
    · exact leaving.heads insideCell
    · have numbers := congrArg Prod.snd equal
      dsimp only at numbers
      omega
  · refine List.nodup_cons.mpr ⟨fun member => ?_, leaving.nodup⟩
    obtain ⟨cell, t, insideCell, -, withinCell, gone, same⟩ := leaving.mem_returned.mp member
    obtain ⟨rfl, rfl⟩ := valid.block_unique inside insideCell within withinCell same
    rw [thread] at gone
    exact gone kept
  · intro a
    rw [List.mem_cons, leaving.mem_returned]
    constructor
    · rintro (rfl | ⟨cell, t, insideCell, more, withinCell, gone, same⟩)
      · exact ⟨source, t₀, inside, positive, within,
          fun still => ((change within).mp still).2 rfl, rfl⟩
      · exact ⟨cell, t, insideCell, more, withinCell,
          fun still => gone ((change withinCell).mp still).1, same⟩
    · rintro ⟨cell, t, insideCell, more, withinCell, gone, same⟩
      by_cases here : (cell, t) = (source, t₀)
      · cases here
        exact .inl same
      · exact .inr ⟨cell, t, insideCell, more, withinCell,
          fun still => gone ((change withinCell).mpr ⟨still, here⟩), same⟩

/-- The particle of a thread is copied to its slot, and nothing changes for other particles. -/
theorem Inv.write (partitioned : sim.Partitioned) (inv : Inv space valid holder dest placed s)
    {source : Coord} {rest : List Coord} {cell2 : Addr} {j : Nat} {slot : Slot}
    (walker : s.walkers tid = ⟨source :: rest, some cell2, j, some slot⟩) :
    Inv space valid holder dest placed
      { s with mem := s.mem.copyParticle slot (cell2, j % sim.perCell) } ∧
    ∀ {cell}, sim.Inside cell → ∀ {i : Nat}, (placed cell)[i]? = some (source, j) →
      (s.mem.copyParticle slot (cell2, j % sim.perCell)).particle
        (dest cell (i / sim.perCell), i % sim.perCell) =
          store.mem.particle (valid.slot (source, j)) := by
  obtain ⟨filling, placing, leaving⟩ := inv
  have cells : (s.walkers tid).cells = source :: rest := by rw [walker]
  have taken : (s.walkers tid).slot = some slot := by rw [walker]
  obtain ⟨mine, -, -⟩ := placing.current cells
  have inside := Sim.inside_of_mem partitioned mine
  have thread := Sim.thread_eq partitioned mine
  obtain ⟨less, c, number, insideDest, found, slotEq⟩ := placing.slot cells taken
  have pointer := (placing.pointer cells).2
  rw [walker] at less found pointer
  dsimp only at less found pointer
  have within : j / sim.perCell ≤ sim.lastBlock (sim.cnumPars (sim.index source)) :=
    Sim.div_le_lastBlock less
  rw [if_pos within, Option.some.injEq] at pointer
  have keeps : (s.walkers (sim.thread source)).Keeps sim source (j / sim.perCell) := by
    rw [thread, walker]
    exact .inl ⟨rfl, le_rfl⟩
  have data : s.mem.particle (cell2, j % sim.perCell) =
      store.mem.particle (valid.slot (source, j)) := by
    rw [pointer]
    exact leaving.particle inside within keeps _
  have short := (List.getElem?_eq_some_iff.mp found).1
  -- the slots of two particles are different
  have unique : ∀ {cell}, sim.Inside cell → ∀ {i : Nat} {id}, (placed cell)[i]? = some id →
      (dest cell (i / sim.perCell), i % sim.perCell) = slot → id = (source, j) := by
    intro cell insideCell i id found' same
    rw [slotEq, Prod.mk.injEq] at same
    have short' := (List.getElem?_eq_some_iff.mp found').1
    obtain ⟨rfl, blocks⟩ := filling.unique insideCell insideDest
      (Sim.div_le_lastBlock short') (Sim.div_le_lastBlock short) same.1
    have numbers : i = number := by
      rw [← Nat.div_add_mod i sim.perCell, ← Nat.div_add_mod number sim.perCell, blocks, same.2]
    rw [numbers, found] at found'
    exact (Option.some.inj found').symm
  have away : ∀ {cell t}, holder (valid.block cell t) = some (.use (.old cell t)) →
      ∀ k, (valid.block cell t, k) ≠ slot := by
    intro cell t used k same
    have new := filling.chain insideDest (Sim.div_le_lastBlock short)
    rw [slotEq, Prod.mk.injEq] at same
    rw [same.1, new] at used
    cases used
  refine ⟨⟨filling.copyParticle _ _, ⟨placing.mem_placed, placing.nodup, ?_, placing.suffix,
    placing.pointer, placing.slot⟩, ⟨leaving.used, leaving.next, ?_, leaving.heads,
    leaving.nodup, leaving.mem_returned⟩⟩, ?_⟩
  · intro cell insideCell i id found' copied
    by_cases same : (dest cell (i / sim.perCell), i % sim.perCell) = slot
    · rw [unique insideCell found' same] at copied
      refine absurd ?_ copied
      change (s.walkers (sim.thread source)).Pending _
      rw [thread, walker]
      exact ⟨rfl, rfl, rfl⟩
    · exact (Mem.particle_copyParticle_of_ne _ same).trans
        (placing.written insideCell found' copied)
  · intro cell t insideCell withinCell kept k
    have used := leaving.used insideCell withinCell kept
    exact (Mem.particle_copyParticle_of_ne _ (away used k)).trans
      (leaving.particle insideCell withinCell kept k)
  · intro cell insideCell i found'
    have same : cell = c := by
      have first := (placing.mem_placed insideCell).mp (List.mem_of_getElem? found')
      have second := (placing.mem_placed insideDest).mp (List.mem_of_getElem? found)
      exact first.2.1.symm.trans second.2.1
    subst same
    have numbers : i = number := by
      have short' := (List.getElem?_eq_some_iff.mp found').1
      exact (List.getElem?_inj short' (placing.nodup insideCell)).mp (found'.trans found.symm)
    rw [numbers, ← slotEq, Mem.particle_copyParticle_self, data]

/-- A thread passes a block and returns it where it is an overflow block. -/
theorem Inv.release (partitioned : sim.Partitioned) (inv : Inv space valid holder dest placed s)
    {walker : Walker} {source : Coord} {t₀ : Nat} (mine : source ∈ sim.cellsOf tid)
    (within : t₀ ≤ sim.lastBlock (sim.cnumPars (sim.index source)))
    (kept : (s.walkers tid).Keeps sim source t₀)
    (placing : Placing space valid dest placed s.mem.particle
      (Function.update s.walkers tid walker))
    (keeps : ∀ {cell t}, t ≤ sim.lastBlock (sim.cnumPars (sim.index cell)) →
      (walker.Keeps sim cell t ↔ (s.walkers tid).Keeps sim cell t ∧ (cell, t) ≠ (source, t₀)))
    (link : Option Addr) :
    ∃ holder', Inv space valid holder' dest placed
      ((s.setWalker tid walker).returnOverflow sim tid (sim.index source)
        (valid.block source t₀) link) := by
  have inside := Sim.inside_of_mem partitioned mine
  have thread := Sim.thread_eq partitioned mine
  have used : holder (valid.block source t₀) = some (.use (.old source t₀)) := by
    refine inv.leaving.used inside within ?_
    rw [thread]
    exact kept
  unfold Rebuild.returnOverflow
  split
  · rename_i overflow
    have positive : 0 < t₀ := by
      refine Nat.pos_of_ne_zero fun zero => overflow ?_
      rw [zero]
      exact valid.head source
    exact ⟨_, inv.filling.returncell used link, placing,
      inv.leaving.release partitioned mine positive within kept keeps link⟩
  · rename_i head
    rw [ne_eq, not_not, ← valid.head source] at head
    obtain ⟨-, rfl⟩ := valid.block_unique inside inside within (Nat.zero_le _) head
    refine ⟨holder, inv.filling, placing, inv.leaving.moveOn ?_ ?_⟩
    · exact fun withinCell still => ((keeps withinCell).mp still).1
    · intro cell t positive withinCell still
      refine (keeps withinCell).mpr ⟨still, fun equal => ?_⟩
      have numbers := congrArg Prod.snd equal
      dsimp only at numbers
      omega

omit [Sub α] [Div α] in
/-- The next particle is in the same block until the block ends. -/
theorem Sim.succ_div (sim : Sim) (j : Nat) : (j + 1) / sim.perCell =
    if j % sim.perCell = sim.perCell - 1 then j / sim.perCell + 1 else j / sim.perCell := by
  have positive := sim.perCell_pos
  have whole := Nat.div_add_mod j sim.perCell
  have below := Nat.mod_lt j positive
  split
  · rename_i last
    have next : j + 1 = sim.perCell * (j / sim.perCell + 1) := by
      rw [Nat.mul_succ]
      omega
    conv_lhs => rw [next]
    exact Nat.mul_div_cancel_left _ positive
  · rename_i inner
    have next : j + 1 = sim.perCell * (j / sim.perCell) + (j % sim.perCell + 1) := by omega
    have fraction : (j % sim.perCell + 1) / sim.perCell = 0 := Nat.div_eq_of_lt (by omega)
    conv_lhs => rw [next]
    rw [Nat.mul_add_div positive, fraction, Nat.add_zero]

/-- Copying a particle keeps the invariant. -/
theorem Inv.copy (partitioned : sim.Partitioned) (inv : Inv space valid holder dest placed s)
    {link : Option Addr} (moves : s.copy sim tid link = some next) :
    ∃ holder', Inv space valid holder' dest placed next := by
  obtain ⟨source, rest, cell2, j, slot, walker, rfl⟩ := Rebuild.copy_cases moves
  have cells : (s.walkers tid).cells = source :: rest := by rw [walker]
  have taken : (s.walkers tid).slot = some slot := by rw [walker]
  obtain ⟨mine, distinct, -⟩ := inv.placing.current cells
  have inside := Sim.inside_of_mem partitioned mine
  have thread := Sim.thread_eq partitioned mine
  have less := (inv.placing.slot cells taken).1
  have pointer := (inv.placing.pointer cells).2
  have suffix := inv.placing.suffix tid
  rw [walker] at less pointer suffix
  dsimp only at less pointer suffix
  have within : j / sim.perCell ≤ sim.lastBlock (sim.cnumPars (sim.index source)) :=
    Sim.div_le_lastBlock less
  rw [if_pos within, Option.some.injEq] at pointer
  have kept : (s.walkers tid).Keeps sim source (j / sim.perCell) := by
    rw [walker]
    exact .inl ⟨rfl, le_rfl⟩
  obtain ⟨written, data⟩ := inv.write partitioned walker
  have ahead : ∀ pointer' id, (Walker.mk (source :: rest) pointer' (j + 1) none).Ahead id ↔
      (s.walkers tid).Ahead id := by
    intro pointer' id
    rw [walker]
    rfl
  have pending : ∀ id, (s.walkers tid).Pending id → id = (source, j) := by
    rintro ⟨cell, number⟩ ⟨here, same, -⟩
    rw [walker] at here same
    cases here
    cases same
    rfl
  have keepsNext : ∀ {pointer' cell t},
      (Walker.mk (source :: rest) pointer' (j + 1) none).Keeps sim cell t ↔
        (cell = source ∧ (j + 1) / sim.perCell ≤ t) ∨ cell ∈ rest := Iff.rfl
  have keepsNow : ∀ {cell t}, (s.walkers tid).Keeps sim cell t ↔
      (cell = source ∧ j / sim.perCell ≤ t) ∨ cell ∈ rest := by
    intro cell t
    rw [walker]
    rfl
  have link' : s.mem.next cell2 =
      if j / sim.perCell + 1 ≤ sim.lastBlock (sim.cnumPars (sim.index source)) then
        some (valid.block source (j / sim.perCell + 1))
      else none := by
    rw [pointer, inv.leaving.next inside within (by rw [thread]; exact kept),
      valid.next_eq inside within]
  dsimp only
  split
  · rename_i ends
    have opens := Sim.succ_div sim j
    rw [if_pos ends] at opens
    rw [pointer] at written data link' ⊢
    refine written.release partitioned mine within kept (written.placing.moveOn suffix ?_ rfl
      (fun id _ => ahead _ id) ?_) ?_ link
    · intro source' rest' here
      cases here
      dsimp only
      rw [opens]
      exact ⟨less, link'⟩
    · intro id waits cell insideCell i found
      rw [pending id waits] at found ⊢
      exact data insideCell found
    · intro cell t _
      refine keepsNext.trans (Iff.trans ?_ (and_congr_left' keepsNow.symm))
      rw [opens, ne_eq, Prod.mk.injEq]
      by_cases here : cell = source
      · subst here
        simp only [distinct, or_false, true_and]
        omega
      · simp only [here, false_and, false_or, not_false_eq_true, and_true]
  · rename_i inner
    have stays := Sim.succ_div sim j
    rw [if_neg inner] at stays
    refine ⟨holder, written.filling, written.placing.moveOn suffix ?_ rfl
      (fun id _ => ahead _ id) ?_, written.leaving.moveOn ?_ ?_⟩
    · intro source' rest' here
      cases here
      dsimp only
      rw [stays, if_pos within, pointer]
      exact ⟨less, rfl⟩
    · intro id waits cell insideCell i found
      rw [pending id waits] at found ⊢
      exact data insideCell found
    · intro cell t _ still
      rw [keepsNext, stays] at still
      exact keepsNow.mpr still
    · intro cell t _ _ still
      rw [keepsNext, stays]
      exact keepsNow.mp still

/-- Leaving a cell keeps the invariant. -/
theorem Inv.leave (partitioned : sim.Partitioned) (inv : Inv space valid holder dest placed s)
    {link : Option Addr} (moves : s.leave sim tid link = some next) :
    ∃ holder', Inv space valid holder' dest placed next := by
  obtain ⟨source, rest, cell2, j, walker, passed, rfl⟩ := Rebuild.leave_cases moves
  have cells : (s.walkers tid).cells = source :: rest := by rw [walker]
  obtain ⟨mine, distinct, suffix⟩ := inv.placing.current cells
  have pointer := inv.placing.pointer cells
  rw [walker] at pointer
  dsimp only at pointer
  obtain ⟨bound, pointer⟩ := pointer
  have ended : j = sim.cnumPars (sim.index source) := by omega
  have pointer' : ∀ {source' rest'}, (sim.walk rest).cells = source' :: rest' →
      (sim.walk rest).j ≤ sim.cnumPars (sim.index source') ∧ (sim.walk rest).cell2 =
        if (sim.walk rest).j / sim.perCell ≤ sim.lastBlock (sim.cnumPars (sim.index source')) then
          some (valid.block source' ((sim.walk rest).j / sim.perCell))
        else none := by
    intro source' rest' here
    obtain rfl : rest = source' :: rest' := here
    refine ⟨Nat.zero_le _, ?_⟩
    simp [Sim.walk, valid.head]
  have ahead : ∀ id, sim.Holds id → ((sim.walk rest).Ahead id ↔ (s.walkers tid).Ahead id) := by
    rintro ⟨cell, number⟩ holds
    rw [Walker.ahead_walk, walker]
    refine (or_iff_right ?_).symm
    rintro ⟨here, more⟩
    have less : number < sim.cnumPars (sim.index cell) := holds.2
    dsimp only at here
    rw [here] at less
    simp only [Walker.taken, Option.isSome_none, Bool.false_eq_true, if_false] at more
    omega
  have none : ∀ id, ¬(s.walkers tid).Pending id := by
    rintro id ⟨-, -, some⟩
    rw [walker] at some
    cases some
  have keepsNow : ∀ {cell t}, (s.walkers tid).Keeps sim cell t ↔
      (cell = source ∧ j / sim.perCell ≤ t) ∨ cell ∈ rest := by
    intro cell t
    rw [walker]
    rfl
  have last : sim.lastBlock (sim.cnumPars (sim.index source)) ≤ j / sim.perCell := by
    rw [ended]
    exact Nat.div_le_div_right (Nat.sub_le _ _)
  have placing := inv.placing.moveOn suffix pointer' rfl ahead
    fun id waits => absurd waits (none id)
  split at pointer
  · rename_i within
    rw [pointer]
    dsimp only
    refine inv.release partitioned mine within (keepsNow.mpr (.inl ⟨rfl, le_rfl⟩)) placing ?_ link
    intro cell t withinCell
    rw [Walker.keeps_walk, keepsNow, ne_eq, Prod.mk.injEq]
    by_cases here : cell = source
    · subst here
      simp only [distinct, or_false, true_and, false_iff]
      omega
    · simp only [here, false_and, false_or, not_false_eq_true, and_true]
  · rename_i beyond
    rw [pointer]
    dsimp only
    refine ⟨holder, inv.filling, placing, inv.leaving.moveOn ?_ ?_⟩
    · intro cell t _ still
      exact keepsNow.mpr (.inr (Walker.keeps_walk.mp still))
    · intro cell t _ withinCell still
      rcases keepsNow.mp still with ⟨rfl, more⟩ | later
      · omega
      · exact Walker.keeps_walk.mpr later

/-- The invariant holds in every state. -/
theorem Rebuild.Reached.inv (valid : Valid sim base store) (partitioned : sim.Partitioned)
    (reached : Rebuild.Reached sim space base store s) :
    ∃ holder dest placed, Inv space valid holder dest placed s := by
  induction reached with
  | start begins =>
    rw [begins]
    exact ⟨_, _, _, valid.inv_start space partitioned⟩
  | step _ moves ih =>
    obtain ⟨holder, dest, placed, inv⟩ := ih
    obtain ⟨action, moves⟩ := moves
    cases action with
    | insert tid block fresh => exact inv.insert partitioned moves
    | copy tid link =>
      obtain ⟨holder', inv'⟩ := inv.copy partitioned moves
      exact ⟨holder', dest, placed, inv'⟩
    | leave tid link =>
      obtain ⟨holder', inv'⟩ := inv.leave partitioned moves
      exact ⟨holder', dest, placed, inv'⟩

omit [Sub α] [Div α] in
/-- A pool can always give out a block, since the system has room for one more. -/
theorem Store.getcell_isSome {st : Store α} (separate : st.pools.blocks.Pairwise sim.Apart)
    (tid : Nat) : ∃ block fresh, (st.getcell sim tid block fresh).isSome := by
  refine ⟨st.pools.blocks.sum + sim.sizeofCell, [st.pools.blocks.sum + sim.sizeofCell], ?_⟩
  unfold Store.getcell Pools.grant
  rw [if_pos]
  · rfl
  · refine ⟨List.pairwise_cons.mpr ⟨fun block member => .inr ?_, separate⟩, List.mem_cons_self⟩
    exact Nat.add_le_add_right (List.le_sum_of_mem member) _

omit [Sub α] [Div α] in
/-- A slot can always be taken. -/
theorem Store.takeSlot_isSome {st : Store α} (separate : st.pools.blocks.Pairwise sim.Apart)
    (tid index : Nat) : ∃ block fresh, (st.takeSlot sim tid index block fresh).isSome := by
  obtain ⟨block, fresh, granted⟩ := Store.getcell_isSome separate tid
  obtain ⟨store, granted⟩ := Option.isSome_iff_exists.mp granted
  refine ⟨block, fresh, ?_⟩
  unfold Store.takeSlot
  rw [granted]
  dsimp only
  split
  · rfl
  · rfl

/-- A thread that has not finished has a step. -/
theorem Inv.progress (inv : Inv space valid holder dest placed s)
    (unfinished : (s.walkers tid).cells ≠ []) :
    ∃ action : Rebuild.Action, action.tid = tid ∧ (s.act sim space action).isSome := by
  obtain ⟨source, rest, cells⟩ := List.exists_cons_of_ne_nil unfinished
  have pointer := (inv.placing.pointer cells).2
  cases taken : (s.walkers tid).slot with
  | some slot =>
    have less := (inv.placing.slot cells taken).1
    rw [if_pos (Sim.div_le_lastBlock less)] at pointer
    have walker : s.walkers tid = ⟨source :: rest,
        some (valid.block source ((s.walkers tid).j / sim.perCell)), (s.walkers tid).j,
        some slot⟩ := by
      rw [← cells, ← pointer, ← taken]
    refine ⟨.copy tid none, rfl, ?_⟩
    unfold Rebuild.act Rebuild.copy
    dsimp only
    rw [walker]
    dsimp only
    split
    · rfl
    · rfl
  | none =>
    by_cases less : (s.walkers tid).j < sim.cnumPars (sim.index source)
    · rw [if_pos (Sim.div_le_lastBlock less)] at pointer
      have walker : s.walkers tid = ⟨source :: rest,
          some (valid.block source ((s.walkers tid).j / sim.perCell)), (s.walkers tid).j,
          none⟩ := by
        rw [← cells, ← pointer, ← taken]
      obtain ⟨block, fresh, some⟩ := Store.takeSlot_isSome inv.filling.held.separate tid
        (sim.index (sim.cellOf space (s.mem.p (valid.block source
          ((s.walkers tid).j / sim.perCell), (s.walkers tid).j % sim.perCell))))
      obtain ⟨⟨slot, store'⟩, took⟩ := Option.isSome_iff_exists.mp some
      refine ⟨.insert tid block fresh, rfl, ?_⟩
      unfold Rebuild.act Rebuild.insert
      dsimp only
      rw [walker]
      dsimp only
      rw [if_pos less, took]
      rfl
    · have walker : s.walkers tid = ⟨source :: rest, (s.walkers tid).cell2, (s.walkers tid).j,
          none⟩ := by
        rw [← cells, ← taken]
      refine ⟨.leave tid none, rfl, ?_⟩
      unfold Rebuild.act Rebuild.leave
      dsimp only
      rw [walker]
      dsimp only
      rw [if_neg less]
      split
      · rfl
      · rfl

/-- The steps that a thread has left. -/
def Walker.work (sim : Sim) (walker : Walker) : Nat :=
  match walker.cells with
  | [] => 0
  | source :: rest =>
    2 * (sim.cnumPars (sim.index source) - walker.j) + (if walker.slot.isSome then 0 else 1) +
      (rest.map fun cell => 2 * sim.cnumPars (sim.index cell) + 1).sum

omit [Sub α] [Div α] in
/-- The work of a walk: two steps a particle and one a cell. -/
theorem Walker.work_walk {cells : List Coord} : (sim.walk cells).work sim =
    (cells.map fun cell => 2 * sim.cnumPars (sim.index cell) + 1).sum := by
  cases cells with
  | nil => rfl
  | cons source rest => rfl

omit [Sub α] [Div α] in
/-- The return of a block moves no walker. -/
@[simp] theorem Rebuild.walkers_returnOverflow (s : Rebuild α) (index : Nat) (block : Addr)
    (link : Option Addr) : (s.returnOverflow sim tid index block link).walkers = s.walkers := by
  unfold Rebuild.returnOverflow
  split
  · rfl
  · rfl

/-- A step is one of a thread that has not finished, and leaves it less to do. -/
theorem Inv.lowers (inv : Inv space valid holder dest placed s)
    (moves : Rebuild.Step sim space s next) :
    ∃ tid walker, next.walkers = Function.update s.walkers tid walker ∧
      walker.work sim < (s.walkers tid).work sim := by
  obtain ⟨action, moves⟩ := moves
  cases action with
  | insert tid block fresh =>
    obtain ⟨source, rest, cell2, j, slot, store', walker, less, -, rfl⟩ :=
      Rebuild.insert_cases moves
    refine ⟨tid, _, rfl, ?_⟩
    rw [walker]
    simp only [Walker.work, Option.isSome_some, Option.isSome_none, if_true, Bool.false_eq_true,
      if_false]
    omega
  | copy tid link =>
    obtain ⟨source, rest, cell2, j, slot, walker, rfl⟩ := Rebuild.copy_cases moves
    have cells : (s.walkers tid).cells = source :: rest := by rw [walker]
    have taken : (s.walkers tid).slot = some slot := by rw [walker]
    have less := (inv.placing.slot cells taken).1
    rw [walker] at less
    dsimp only at less
    have fewer : ∀ pointer, (Walker.mk (source :: rest) pointer (j + 1) none).work sim <
        (s.walkers tid).work sim := by
      intro pointer
      rw [walker]
      simp only [Walker.work, Option.isSome_some, Option.isSome_none, if_true,
        Bool.false_eq_true, if_false]
      omega
    dsimp only
    split
    · exact ⟨tid, _, Rebuild.walkers_returnOverflow .., fewer _⟩
    · exact ⟨tid, _, rfl, fewer _⟩
  | leave tid link =>
    obtain ⟨source, rest, cell2, j, walker, -, rfl⟩ := Rebuild.leave_cases moves
    have fewer : (sim.walk rest).work sim < (s.walkers tid).work sim := by
      rw [walker, Walker.work_walk]
      simp only [Walker.work, Option.isSome_none, Bool.false_eq_true, if_false]
      omega
    split
    · exact ⟨tid, _, Rebuild.walkers_returnOverflow .., fewer⟩
    · exact ⟨tid, _, rfl, fewer⟩

/-- The steps that all threads have left. -/
def Rebuild.work (sim : Sim) (s : Rebuild α) : Nat :=
  ∑ tid ∈ Finset.range sim.grids.length, (s.walkers tid).work sim

/-- There are no more threads than grids. -/
theorem Inv.outside (inv : Inv space valid holder dest placed s)
    (outside : sim.grids.length ≤ tid) : (s.walkers tid).cells = [] := by
  have suffix := inv.placing.suffix tid
  have none : sim.cellsOf tid = [] := by
    unfold Sim.cellsOf
    rw [List.getElem?_eq_none outside]
    rfl
  rw [none, List.suffix_nil] at suffix
  exact suffix

/-- Every step leaves less to do. -/
theorem Rebuild.Reached.work_lt (valid : Valid sim base store) (partitioned : sim.Partitioned)
    (reached : Rebuild.Reached sim space base store s) (moves : Rebuild.Step sim space s next) :
    next.work sim < s.work sim := by
  obtain ⟨holder, dest, placed, inv⟩ := reached.inv valid partitioned
  obtain ⟨tid, walker, same, fewer⟩ := inv.lowers moves
  have inside : tid < sim.grids.length := by
    by_contra outside
    have zero : (s.walkers tid).work sim = 0 := by
      unfold Walker.work
      rw [inv.outside (Nat.le_of_not_lt outside)]
    omega
  have balance := sum_range_update (Walker.work sim) s.walkers walker inside
  unfold Rebuild.work
  rw [same]
  omega

end Invariant

/-- The simulation with the array `cells` for the array `cells2` and new counts. -/
def Sim.rebuilt (sim : Sim) (base : Nat) (cnumPars : Nat → Nat) : Sim :=
  { sim with cellsBase := base, cnumPars := cnumPars }

namespace Valid

variable {α : Type} {sim : Sim} {base : Nat} {store : Store α} (valid : Valid sim base store)

/-- The particles of the grid. -/
def particles : List (Particle α) :=
  sim.domain.cells.flatMap fun cell => (List.range (sim.cnumPars (sim.index cell))).map fun j =>
    store.mem.particle (valid.slot (cell, j))

/-- The blocks of the chains behind the entries of the array. -/
def overflow : List Addr :=
  sim.domain.cells.flatMap fun cell =>
    (List.range (sim.lastBlock (sim.cnumPars (sim.index cell)))).map fun t =>
      valid.block cell (t + 1)

end Valid

section Finish

variable {α : Type} [Sub α] [Div α] {sim : Sim} {base : Nat} {store : Store α} {space : Space α}
  {valid : Valid sim base store} {holder : Addr → Option (Holder Nat Use)}
  {dest : Coord → Nat → Addr} {placed : Coord → List ParticleId} {s : Rebuild α}

/-- When all threads have finished every particle has been passed. -/
theorem Inv.mem_placed (inv : Inv space valid holder dest placed s) (finished : s.Finished)
    {cell : Coord} (inside : sim.Inside cell) {id : ParticleId} : id ∈ placed cell ↔
      sim.Holds id ∧ sim.cellOf space (store.mem.p (valid.slot id)) = cell := by
  rw [inv.placing.mem_placed inside]
  have passed : ¬(s.walkers (sim.thread id.1)).Ahead id := by
    unfold Walker.Ahead
    rw [finished]
    exact not_false
  simp only [passed, not_false_eq_true, and_true]

/-- When all threads have finished every particle is stored in its slot. -/
theorem Inv.written (inv : Inv space valid holder dest placed s) (finished : s.Finished)
    {cell : Coord} (inside : sim.Inside cell) {i : Nat} {id : ParticleId}
    (found : (placed cell)[i]? = some id) :
    s.mem.particle (dest cell (i / sim.perCell), i % sim.perCell) =
      store.mem.particle (valid.slot id) := by
  refine inv.placing.written inside found ?_
  rintro ⟨here, -⟩
  rw [finished] at here
  cases here

/-- When all threads have finished the new chains are a valid grid. -/
def Inv.rebuilt (inv : Inv space valid holder dest placed s) :
    Valid (sim.rebuilt base s.cnumPars) sim.cellsBase s.toStore where
  block := dest
  head := inv.filling.head
  linked cell inside t more := by
    have count := inv.filling.count inside
    change (t + 1) * sim.perCell < s.cnumPars (sim.index cell) at more
    rw [count] at more
    exact inv.filling.linked inside ((Sim.le_lastBlock (by omega)).mpr more)
  apart cell other inside inside' t t' used used' different := by
    have count := inv.filling.count inside
    have count' := inv.filling.count inside'
    change t * sim.perCell < s.cnumPars (sim.index cell) at used
    change t' * sim.perCell < s.cnumPars (sim.index other) at used'
    rw [count] at used
    rw [count'] at used'
    have within := (Sim.le_lastBlock (by omega)).mpr used
    have within' := (Sim.le_lastBlock (by omega)).mpr used'
    refine inv.filling.held.apart_of_ne (inv.filling.chain inside within)
      (inv.filling.chain inside' within') fun same => different ?_
    obtain ⟨rfl, rfl⟩ := inv.filling.unique inside inside' within within' same
    rfl
  holder a := (holder a).map (Holder.map Use.swap)
  held := inv.filling.held.map Use.swap
  last cell inside := by
    have count := inv.filling.count inside
    change s.mem.next (dest cell (sim.lastBlock (s.cnumPars (sim.index cell)))) = none
    rw [count]
    exact inv.filling.last inside
  chain cell inside t within := by
    have count := inv.filling.count inside
    change t ≤ sim.lastBlock (s.cnumPars (sim.index cell)) at within
    rw [count] at within
    rw [inv.filling.chain inside within]
    rfl
  spare cell inside := by
    have head := inv.leaving.heads inside
    rw [valid.head] at head
    change (holder (sim.cellAt (sim.index cell))).map _ = _
    rw [head]
    rfl

/-- The particles of the new grid are those of the old one. -/
theorem Inv.particles_perm (inv : Inv space valid holder dest placed s)
    (finished : s.Finished) : inv.rebuilt.particles.Perm valid.particles := by
  have stored : inv.rebuilt.particles = (sim.domain.cells.flatMap placed).map fun id =>
      store.mem.particle (valid.slot id) := by
    rw [List.map_flatMap]
    apply List.flatMap_congr
    intro cell member
    have inside := Sim.mem_domain.mp member
    have count := inv.filling.count inside
    change (List.range (s.cnumPars (sim.index cell))).map _ = _
    rw [count]
    apply List.ext_getElem
    · simp
    · intro i below below'
      rw [List.getElem_map, List.getElem_map, List.getElem_range]
      rw [List.length_map] at below'
      exact inv.written finished inside (List.getElem?_eq_getElem below')
  have ids : valid.particles = (sim.domain.cells.flatMap fun cell =>
      (List.range (sim.cnumPars (sim.index cell))).map fun j => (cell, j)).map fun id =>
        store.mem.particle (valid.slot id) := by
    rw [List.map_flatMap]
    apply List.flatMap_congr
    intro cell _
    rw [List.map_map]
    rfl
  rw [stored, ids]
  refine List.Perm.map _ ((List.perm_ext_iff_of_nodup ?_ ?_).mpr fun id => ?_)
  · refine nodup_flatMap_of_unique (cells_nodup _)
      (fun cell member => inv.placing.nodup (Sim.mem_domain.mp member)) ?_
    intro cell member other member' id here here'
    have first := (inv.mem_placed finished (Sim.mem_domain.mp member)).mp here
    have second := (inv.mem_placed finished (Sim.mem_domain.mp member')).mp here'
    exact first.2.symm.trans second.2
  · apply nodup_flatMap_of_tag Prod.fst (cells_nodup _)
    · intro cell _
      exact List.nodup_range.map fun _ _ same => congrArg Prod.snd same
    · intro cell _ id member
      obtain ⟨j, -, rfl⟩ := List.mem_map.mp member
      rfl
  · obtain ⟨cell, j⟩ := id
    simp only [List.mem_flatMap, List.mem_map, List.mem_range, Prod.mk.injEq]
    constructor
    · rintro ⟨target, member, here⟩
      have holds := ((inv.mem_placed finished (Sim.mem_domain.mp member)).mp here).1
      exact ⟨cell, Sim.mem_domain.mpr holds.1, j, holds.2, rfl, rfl⟩
    · rintro ⟨cell', member, j', less, rfl, rfl⟩
      have inside := sim.inside_cellOf space (store.mem.p (valid.slot (cell', j')))
      exact ⟨_, Sim.mem_domain.mpr inside,
        (inv.mem_placed finished inside).mpr ⟨⟨Sim.mem_domain.mp member, less⟩, rfl⟩⟩

/-- Every particle of the new grid lies in its cell. -/
theorem Inv.cellOf_eq (inv : Inv space valid holder dest placed s) (finished : s.Finished)
    {id : ParticleId} (holds : (sim.rebuilt base s.cnumPars).Holds id) :
    sim.cellOf space (s.mem.p (inv.rebuilt.slot id)) = id.1 := by
  obtain ⟨inside, below⟩ := holds
  have count := inv.filling.count inside
  change id.2 < s.cnumPars (sim.index id.1) at below
  rw [count] at below
  have found := List.getElem?_eq_getElem below
  have position : s.mem.p (inv.rebuilt.slot id) = store.mem.p (valid.slot (placed id.1)[id.2]) :=
    congrArg Particle.p (inv.written finished inside found)
  rw [position]
  exact ((inv.mem_placed finished inside).mp (List.getElem_mem below)).2

/-- When all threads have finished every overflow block of the old grid has been given back once. -/
theorem Inv.returned_perm (inv : Inv space valid holder dest placed s)
    (finished : s.Finished) : s.returned.Perm valid.overflow := by
  refine (List.perm_ext_iff_of_nodup inv.leaving.nodup ?_).mpr fun a => ?_
  · refine nodup_flatMap_of_unique (cells_nodup _) ?_ ?_
    · intro cell member
      have inside := Sim.mem_domain.mp member
      refine List.Nodup.map_on ?_ List.nodup_range
      intro t below t' below' same
      have within := List.mem_range.mp below
      have within' := List.mem_range.mp below'
      have numbers := (valid.block_unique inside inside within within' same).2
      omega
    · intro cell member other member' a here here'
      obtain ⟨t, below, rfl⟩ := List.mem_map.mp here
      obtain ⟨t', below', same⟩ := List.mem_map.mp here'
      exact ((valid.block_unique (Sim.mem_domain.mp member') (Sim.mem_domain.mp member)
        (List.mem_range.mp below') (List.mem_range.mp below) same).1).symm
  · rw [inv.leaving.mem_returned]
    simp only [Valid.overflow, List.mem_flatMap, List.mem_map, List.mem_range]
    constructor
    · rintro ⟨cell, t, inside, positive, within, -, rfl⟩
      refine ⟨cell, Sim.mem_domain.mpr inside, t - 1, by omega, ?_⟩
      rw [Nat.sub_add_cancel positive]
    · rintro ⟨cell, member, t, below, rfl⟩
      refine ⟨cell, t + 1, Sim.mem_domain.mp member, Nat.succ_pos t, below, ?_, rfl⟩
      unfold Walker.Keeps
      rw [finished]
      exact not_false

/-- When all threads have finished, the grid is valid and has the old particles. -/
theorem Rebuild.Reached.finished_grid (partitioned : sim.Partitioned) (valid : Valid sim base store)
    {s : Rebuild α} (reached : Rebuild.Reached sim space base store s) (finished : s.Finished) :
    ∃ grid : Valid (sim.rebuilt base s.cnumPars) sim.cellsBase s.toStore,
      grid.particles.Perm valid.particles ∧
      (∀ id, (sim.rebuilt base s.cnumPars).Holds id →
        sim.cellOf space (s.mem.p (grid.slot id)) = id.1) ∧
      s.returned.Perm valid.overflow := by
  obtain ⟨holder, dest, placed, inv⟩ := reached.inv valid partitioned
  exact ⟨inv.rebuilt, inv.particles_perm finished, fun _ holds => inv.cellOf_eq finished holds,
    inv.returned_perm finished⟩

end Finish

/-- `ClearParticlesMT` and `RebuildGridMT` on a valid grid, with the steps of the threads in any
order: a thread that has not finished has a step, so that it never follows a null pointer, and no
run goes on forever. When all threads have finished, the array `cells` holds a valid grid with the
particles of the old one, in which every particle lies in the cell of its position, and every
overflow block of the old grid has been returned to a pool once. -/
theorem rebuild_valid {α : Type} [Sub α] [Div α] {sim : Sim} {base : Nat} {store : Store α}
    (space : Space α) (partitioned : sim.Partitioned) (valid : Valid sim base store) :
    (∀ s, Rebuild.Reached sim space base store s → ∀ tid, (s.walkers tid).cells ≠ [] →
      ∃ action : Rebuild.Action, action.tid = tid ∧ (s.act sim space action).isSome) ∧
    (¬∃ run : Nat → Rebuild α, run 0 = .start sim base store ∧
      ∀ i, Rebuild.Step sim space (run i) (run (i + 1))) ∧
    ∀ s, Rebuild.Reached sim space base store s → s.Finished →
      ∃ grid : Valid (sim.rebuilt base s.cnumPars) sim.cellsBase s.toStore,
        grid.particles.Perm valid.particles ∧
        (∀ id, (sim.rebuilt base s.cnumPars).Holds id →
          sim.cellOf space (s.mem.p (grid.slot id)) = id.1) ∧
        s.returned.Perm valid.overflow := by
  refine ⟨fun s reached tid unfinished => ?_, ?_, fun s reached finished => ?_⟩
  · obtain ⟨holder, dest, placed, inv⟩ := reached.inv valid partitioned
    exact inv.progress unfinished
  · exact Reachable.no_infinite_run (Rebuild.work sim) fun _ _ reached moves =>
      Rebuild.Reached.work_lt valid partitioned reached moves
  · exact reached.finished_grid partitioned valid finished

/-- Two cells for two threads, with two particles in the first one and one slot in a block. -/
def crowd : Sim where
  perCell := 1
  perCell_pos := Nat.one_pos
  nx := 2
  ny := 1
  nz := 1
  nx_pos := Nat.two_pos
  ny_pos := Nat.one_pos
  nz_pos := Nat.one_pos
  cnumPars index := if index = 0 then 2 else 0
  grids := [⟨0, 0, 0, 1, 1, 1⟩, ⟨1, 0, 0, 2, 1, 1⟩]
  cellsBase := 0
  sizeofCell := 1
  offsetofP := 0
  sizeofVec3 := 1
  sizeofVec3_pos := Nat.one_pos
  fits := by omega

/-- Cells of size one. -/
def units : Space ℤ := ⟨⟨0, 0, 0⟩, ⟨1, 1, 1⟩, id⟩

/-- The second particle is in an overflow block and has moved to the second cell. -/
def crowdStore : Store ℤ where
  mem :=
    { p := fun slot => if slot.1 = 20 then ⟨1, 0, 0⟩ else ⟨0, 0, 0⟩
      hv := fun _ => ⟨0, 0, 0⟩
      v := fun _ => ⟨0, 0, 0⟩
      a := fun _ => ⟨0, 0, 0⟩
      density := fun _ => 0
      next := fun cell => if cell = 0 then some 20 else none }
  cnumPars _ := 0
  lastCells _ := 0
  pools := ⟨fun _ => [], [0, 1, 10, 11, 20]⟩

/-- The two cells of the sample. -/
theorem mem_crowd {cell : Coord} (inside : crowd.Inside cell) :
    cell = ⟨0, 0, 0⟩ ∨ cell = ⟨1, 0, 0⟩ := by
  have member : cell ∈ [(⟨0, 0, 0⟩ : Coord), ⟨1, 0, 0⟩] := Sim.mem_domain.mpr inside
  simpa using member

/-- The grid is valid. -/
def crowdValid : Valid crowd 10 crowdStore where
  block cell t := if t = 0 then crowd.cellAt (crowd.index cell) else 20
  head _ := rfl
  linked := by
    intro cell inside t more
    rcases mem_crowd inside with rfl | rfl
    · change (t + 1) * 1 < 2 at more
      obtain rfl : t = 0 := by omega
      rfl
    · change (t + 1) * 1 < 0 at more
      omega
  apart := by
    intro cell other inside inside' t t' used used' different
    rcases mem_crowd inside with rfl | rfl
    · rcases mem_crowd inside' with rfl | rfl
      · change t * 1 < 2 at used
        change t' * 1 < 2 at used'
        have numbers : t ≠ t' := fun same => different (by rw [same])
        have first : t = 0 ∨ t = 1 := by omega
        have second : t' = 0 ∨ t' = 1 := by omega
        rcases first with rfl | rfl <;> rcases second with rfl | rfl <;> revert numbers <;> decide
      · change t' * 1 < 0 at used'
        omega
    · change t * 1 < 0 at used
      omega
  holder a :=
    if a = 0 then some (.use (.old ⟨0, 0, 0⟩ 0)) else
    if a = 1 then some (.use (.old ⟨1, 0, 0⟩ 0)) else
    if a = 10 then some (.use (.new ⟨0, 0, 0⟩ 0)) else
    if a = 11 then some (.use (.new ⟨1, 0, 0⟩ 0)) else
    if a = 20 then some (.use (.old ⟨0, 0, 0⟩ 1)) else none
  held := by
    refine ⟨?_, by decide, ?_, fun _ => List.nodup_nil⟩
    · intro a held known
      split_ifs at known <;> simp_all [crowdStore]
    · intro i a
      constructor
      · intro free
        cases free
      · intro pooled
        split_ifs at pooled <;> cases pooled
  last := by
    intro cell inside
    rcases mem_crowd inside with rfl | rfl <;> decide
  chain := by
    intro cell inside t within
    rcases mem_crowd inside with rfl | rfl
    · change t ≤ 1 at within
      have number : t = 0 ∨ t = 1 := by omega
      rcases number with rfl | rfl <;> decide
    · obtain rfl : t = 0 := Nat.le_zero.mp within
      decide
  spare := by
    intro cell inside
    rcases mem_crowd inside with rfl | rfl <;> decide

/-- A run in which the overflow block is given back. -/
def crowdRun : List Rebuild.Action :=
  [.insert 0 20 [], .leave 1 none, .copy 0 none, .insert 0 20 [], .copy 0 none, .leave 0 none]

/-- The thread ids are a run. -/
theorem crowd_run :
    ((Rebuild.start crowd 10 crowdStore).acts crowd units crowdRun).isSome = true := by
  decide

/-- The threads have finished after the run. -/
theorem crowd_ended : ∀ s ∈ (Rebuild.start crowd 10 crowdStore).acts crowd units crowdRun,
    ∀ tid < 2, (s.walkers tid).cells = [] := by
  decide

/-- The overflow block is returned once. -/
theorem rebuild_valid_sample : ∃ s, Rebuild.Reached crowd units 10 crowdStore s ∧
    s.Finished ∧ s.returned.Perm crowdValid.overflow := by
  have partitioned : crowd.Partitioned := by decide
  obtain ⟨s, run⟩ := Option.isSome_iff_exists.mp crowd_run
  have reached := Rebuild.Reached.acts (.start rfl) run
  obtain ⟨_, _, _, inv⟩ := reached.inv crowdValid partitioned
  have finished : s.Finished := by
    intro tid
    by_cases inside : tid < 2
    · exact crowd_ended s run tid inside
    · exact inv.outside (Nat.le_of_not_lt inside)
  obtain ⟨-, -, -, returned⟩ :=
    (rebuild_valid units partitioned crowdValid).2.2 s reached finished
  exact ⟨s, reached, finished, returned⟩

end P3arsec.Fluidanimate
