import P3arsec.Fluidanimate.Tbb

/-!
# What the tasks have still to write

A task takes a slot in several accesses. It counts as taken when the task has seen whether the last
block is full: there the thread of `RebuildGridMT` takes its slot at once. `Matches` says what the
shared variables lack of that state, and every access of a task keeps it, as long as no other task
is between its accesses to the same cell.
-/

namespace P3arsec.Fluidanimate

open P3arsec.Lib

/-- A block has been taken from the system and is in no pool. -/
def InUse (pools : Pools Nat Addr) (block : Addr) : Prop :=
  block ∈ pools.blocks ∧ ∀ pool, block ∉ pools.free pool

section Pools

variable {sim : Sim} {pools next : Pools Nat Addr} {x : Addr}

/-- A block in use is not given out. -/
theorem InUse.grant (used : InUse pools x) {task : Nat} {block : Addr} {fresh : List Addr}
    (granted : pools.grant sim.Apart task block fresh = some next) :
    x ≠ block ∧ InUse next x := by
  unfold Pools.grant at granted
  split at granted
  case isFalse => cases granted
  rename_i allowed
  obtain ⟨separate, member⟩ := allowed
  cases granted
  have old : x ∉ fresh := fun new =>
    sim.not_apart x ((List.pairwise_append.mp separate).2.2 x new x used.1)
  refine ⟨?_, List.mem_append_right _ used.1, ?_⟩
  · rintro rfl
    exact (List.mem_append.mp member).elim old (used.2 task)
  · intro pool free
    dsimp only at free
    by_cases mine : pool = task
    · subst mine
      rw [Function.update_self] at free
      exact (List.mem_append.mp (List.mem_of_mem_erase free)).elim old (used.2 pool)
    · rw [Function.update_of_ne mine] at free
      exact used.2 pool free

/-- A block in use stays in use when another one is returned. -/
theorem InUse.giveBack (used : InUse pools x) {block : Addr} (apart : x ≠ block) (task : Nat) :
    InUse (pools.giveBack task block) x := by
  refine ⟨used.1, fun pool free => ?_⟩
  unfold Pools.giveBack at free
  dsimp only at free
  by_cases mine : pool = task
  · subst mine
    rw [Function.update_self] at free
    exact (List.mem_cons.mp free).elim apart (used.2 pool)
  · rw [Function.update_of_ne mine] at free
    exact used.2 pool free

/-- The ledger knows the blocks in use. -/
theorem inUse_of_held {holder : Addr → Option (Holder Nat Use)}
    (held : pools.Held sim.Apart holder) {use : Use} (known : holder x = some (.use use)) :
    InUse pools x := by
  refine ⟨held.known known, fun pool free => ?_⟩
  have other := held.mem_free.mp free
  rw [known] at other
  cases other

end Pools

section Facts

variable {α : Type} [Sub α] [Div α] {sim : Sim} {base : Nat} {store : Store α} {space : Space α}
  {valid : Valid sim base store} {holder : Addr → Option (Holder Nat Use)}
  {dest : Coord → Nat → Addr} {placed : Coord → List ParticleId} {a : Rebuild α}

/-- The last blocks of two cells differ. -/
theorem Inv.lastCells_injective (inv : Inv space valid holder dest placed a) {c c' : Coord}
    (inside : sim.Inside c) (inside' : sim.Inside c')
    (same : a.lastCells (sim.index c) = a.lastCells (sim.index c')) : c = c' := by
  rw [inv.filling.lastCell inside, inv.filling.lastCell inside'] at same
  exact (inv.filling.unique inside inside' le_rfl le_rfl same).1

/-- The last block of a cell is in use. -/
theorem Inv.lastCells_inUse (inv : Inv space valid holder dest placed a) {c : Coord}
    (inside : sim.Inside c) : InUse a.pools (a.lastCells (sim.index c)) := by
  rw [inv.filling.lastCell inside]
  exact inUse_of_held inv.filling.held (inv.filling.chain inside le_rfl)

/-- The block that a thread reads is in its old chain. -/
theorem Inv.source (inv : Inv space valid holder dest placed a) (partitioned : sim.Partitioned)
    {task : Nat} {source : Coord} {rest : List Coord} {cell2 : Addr}
    (cells : (a.walkers task).cells = source :: rest)
    (reads : (a.walkers task).cell2 = some cell2) :
    sim.Inside source ∧ (a.walkers task).j / sim.perCell ≤
        sim.lastBlock (sim.cnumPars (sim.index source)) ∧
      (a.walkers (sim.thread source)).Keeps sim source ((a.walkers task).j / sim.perCell) ∧
      cell2 = valid.block source ((a.walkers task).j / sim.perCell) := by
  have member := (inv.placing.current cells).1
  have inside := Sim.inside_of_mem partitioned member
  have pointer := (inv.placing.pointer cells).2
  rw [reads] at pointer
  have within : (a.walkers task).j / sim.perCell ≤
      sim.lastBlock (sim.cnumPars (sim.index source)) := by
    by_contra beyond
    rw [if_neg beyond] at pointer
    cases pointer
  rw [if_pos within] at pointer
  refine ⟨inside, within, ?_, Option.some.inj pointer⟩
  rw [Sim.thread_eq partitioned member]
  unfold Walker.Keeps
  rw [cells]
  exact .inl ⟨rfl, le_rfl⟩

/-- A thread reads the particle of its number. -/
theorem Inv.source_particle (inv : Inv space valid holder dest placed a)
    (partitioned : sim.Partitioned) {task : Nat} {source : Coord} {rest : List Coord}
    {cell2 : Addr} (cells : (a.walkers task).cells = source :: rest)
    (reads : (a.walkers task).cell2 = some cell2) :
    a.mem.particle (cell2, (a.walkers task).j % sim.perCell) =
      store.mem.particle (valid.slot (source, (a.walkers task).j)) := by
  obtain ⟨inside, within, keeps, rfl⟩ := inv.source partitioned cells reads
  exact inv.leaving.particle inside within keeps _

/-- A slot that has been taken is one of a new chain. -/
theorem Inv.slot_used (inv : Inv space valid holder dest placed a) {task : Nat} {source : Coord}
    {rest : List Coord} {slot : Slot} (cells : (a.walkers task).cells = source :: rest)
    (takes : (a.walkers task).slot = some slot) :
    ∃ c i, sim.Inside c ∧ (placed c)[i]? = some (source, (a.walkers task).j) ∧
      i / sim.perCell ≤ sim.lastBlock (placed c).length ∧
      slot = (dest c (i / sim.perCell), i % sim.perCell) := by
  obtain ⟨-, c, i, inside, found, same⟩ := inv.placing.slot cells takes
  refine ⟨c, i, inside, found, ?_, same⟩
  obtain ⟨below, -⟩ := List.getElem?_eq_some_iff.mp found
  exact Sim.div_le_lastBlock below

/-- Nothing is read from a slot that has been taken. -/
theorem Inv.source_ne_slot (inv : Inv space valid holder dest placed a)
    (partitioned : sim.Partitioned) {task other : Nat} {source source' : Coord}
    {rest rest' : List Coord} {cell2 : Addr} {slot : Slot} {k : Nat}
    (cells : (a.walkers task).cells = source :: rest)
    (reads : (a.walkers task).cell2 = some cell2)
    (cells' : (a.walkers other).cells = source' :: rest')
    (takes : (a.walkers other).slot = some slot) : slot ≠ (cell2, k) := by
  rintro rfl
  obtain ⟨inside, within, keeps, rfl⟩ := inv.source partitioned cells reads
  obtain ⟨c, i, inside', -, within', same⟩ := inv.slot_used cells' takes
  have old := inv.leaving.used inside within keeps
  have new := inv.filling.chain inside' within'
  rw [(Prod.mk.inj same).1, new] at old
  cases old

/-- Two threads have not taken the same slot. -/
theorem Inv.slot_injective (inv : Inv space valid holder dest placed a)
    (partitioned : sim.Partitioned) {task other : Nat} {source source' : Coord}
    {rest rest' : List Coord} {slot : Slot}
    (cells : (a.walkers task).cells = source :: rest) (takes : (a.walkers task).slot = some slot)
    (cells' : (a.walkers other).cells = source' :: rest')
    (takes' : (a.walkers other).slot = some slot) : task = other := by
  obtain ⟨c, i, inside, found, within, rfl⟩ := inv.slot_used cells takes
  obtain ⟨c', i', inside', found', within', same⟩ := inv.slot_used cells' takes'
  obtain ⟨blocks, digits⟩ := Prod.mk.inj same
  obtain ⟨rfl, numbers⟩ := inv.filling.unique inside inside' within within' blocks
  obtain rfl : i = i' := by
    rw [← Nat.div_add_mod i sim.perCell, ← Nat.div_add_mod i' sim.perCell, numbers, digits]
  rw [found'] at found
  obtain ⟨rfl, -⟩ := Prod.mk.inj (Option.some.inj found)
  rw [← Sim.thread_eq partitioned (inv.placing.current cells).1,
    ← Sim.thread_eq partitioned (inv.placing.current cells').1]

/-- A block that a thread still reads does not point to the last block of a new chain. -/
theorem Inv.source_ne_linked (inv : Inv space valid holder dest placed a)
    (partitioned : sim.Partitioned) {task : Nat} {source c : Coord} {rest : List Coord}
    {cell2 x : Addr} (cells : (a.walkers task).cells = source :: rest)
    (reads : (a.walkers task).cell2 = some cell2) (inside : sim.Inside c)
    (linked : a.mem.next x = some (a.lastCells (sim.index c))) : x ≠ cell2 := by
  rintro rfl
  obtain ⟨inside', within, keeps, rfl⟩ := inv.source partitioned cells reads
  rw [inv.leaving.next inside' within keeps, valid.next_eq inside' within] at linked
  split at linked
  case isFalse => cases linked
  rename_i more
  have old : holder (valid.block source ((a.walkers task).j / sim.perCell + 1)) =
      some (.use (.old source ((a.walkers task).j / sim.perCell + 1))) := by
    refine inv.leaving.used inside' more ?_
    rw [Sim.thread_eq partitioned (inv.placing.current cells).1]
    unfold Walker.Keeps
    rw [cells]
    exact .inl ⟨rfl, Nat.le_succ _⟩
  rw [Option.some.inj linked, inv.filling.lastCell inside, inv.filling.chain inside le_rfl] at old
  cases old

end Facts

namespace Phase

/-- The cell and the old count of a slot that counts as taken, though its count is not stored. -/
def taken : Phase → Option (Nat × Nat)
  | .link index _ np _ => some (index, np)
  | .follow index _ np => some (index, np)
  | .setLast index _ np => some (index, np)
  | .load index _ np => some (index, np)
  | .store index _ np _ => some (index, np)
  | _ => none

/-- The block whose link is still to be written. -/
def relinks : Phase → Option Addr
  | .link _ cell _ _ => some cell
  | _ => none

/-- The cell whose last block is still to be set. -/
def relasts : Phase → Option Nat
  | .link index _ _ _ => some index
  | .follow index _ _ => some index
  | .setLast index _ _ => some index
  | _ => none

/-- The cell of the particle, until its slot has been taken. -/
def target : Phase → Option Nat
  | .lock index => some index
  | .unlock index => some index
  | .last index => some index
  | phase => phase.section

/-- A task that has taken a place is in the section of its cell. -/
theorem section_of_taken {phase : Phase} {index np : Nat} (taken : phase.taken = some (index, np)) :
    phase.section = some index := by
  cases phase <;> simp_all [Phase.taken, Phase.section]

/-- So is one that is about to set the last block. -/
theorem section_of_relasts {phase : Phase} {index : Nat} (relasts : phase.relasts = some index) :
    phase.section = some index := by
  cases phase <;> simp_all [Phase.relasts, Phase.section]

/-- A section is that of the cell to which the particle goes. -/
theorem target_of_section {phase : Phase} {index : Nat} (inside : phase.section = some index) :
    phase.target = some index := by
  cases phase <;> simp_all [Phase.target, Phase.section]

end Phase

section Matching

variable {α : Type} [Sub α] [Div α] {sim : Sim} {base : Nat} {store : Store α} (space : Space α)
  (valid : Valid sim base store)

/-- A task is at a particle whose cell has the index. -/
def Target (index : Nat) (walker : Walker) : Prop :=
  ∃ source rest cell2 j, walker = ⟨source :: rest, some cell2, j, none⟩ ∧
    j < sim.cnumPars (sim.index source) ∧
    index = sim.index (sim.cellOf space (store.mem.p (valid.slot (source, j))))

/-- What the variables of a task say about the state in which slots are taken at once. -/
def Stage (a : Rebuild α) (st : Store α) (walker : Walker) : Phase → Prop
  | .idle => walker.slot = none
  | .lock _ => True
  | .unlock _ => True
  | .last _ => True
  | .count index cell => cell = a.lastCells index
  | .test index cell np => cell = a.lastCells index ∧ np = a.cnumPars index
  | .get index cell np => cell = a.lastCells index ∧ np = a.cnumPars index ∧
      np % sim.perCell = 0 ∧ np ≠ 0
  | .link index cell _ block => block = a.lastCells index ∧
      a.mem.next cell = some (a.lastCells index) ∧ InUse a.pools cell
  | .follow index cell _ => a.mem.next cell = some (a.lastCells index) ∧ InUse a.pools cell
  | .setLast index cell _ => cell = a.lastCells index
  | .load index cell _ => cell = a.lastCells index
  | .store index cell _ value => cell = a.lastCells index ∧ value = st.cnumPars index
  | .copy fields => ∃ source rest cell2 j slot,
      walker = ⟨source :: rest, some cell2, j, some slot⟩ ∧ ∀ i < fields, i < 9 →
        (st.mem.particle slot).field i = (store.mem.particle (valid.slot (source, j))).field i

/-- The state in which slots are taken at once, from the state of the tasks: what a task has still
to write is in it. -/
structure Matches (a : Rebuild α) (t : Tasks α) : Prop where
  /-- The pools. -/
  pools : a.pools = t.pools
  /-- The blocks that have been returned. -/
  returned : a.returned = t.returned
  /-- Accelerations. -/
  accelerations : a.mem.a = t.mem.a
  /-- Densities. -/
  densities : a.mem.density = t.mem.density
  /-- A count that no task has still to store. -/
  free : ∀ i, (∀ task np, (t.phase task).taken ≠ some (i, np)) → a.cnumPars i = t.cnumPars i
  /-- A count that a task has still to store. -/
  taken : ∀ task i np, (t.phase task).taken = some (i, np) → a.cnumPars i = t.cnumPars i + 1
  /-- The last blocks. -/
  last : ∀ i, (∀ task, (t.phase task).relasts ≠ some i) → a.lastCells i = t.lastCells i
  /-- The links. -/
  next : ∀ x, (∀ task, (t.phase task).relinks ≠ some x) → a.mem.next x = t.mem.next x
  /-- The particles, but in slots that have been taken and are not yet filled. -/
  particle : ∀ x, (∀ task, (a.walkers task).slot ≠ some x) →
    a.mem.particle x = t.mem.particle x
  /-- One task is between the accesses to the variables of a cell. -/
  exclusive : ∀ task other i, (t.phase task).section = some i → (t.phase other).section = some i →
    task = other
  /-- The threads. -/
  walker : ∀ task, a.walkers task =
    match (t.phase task).taken with
    | some (i, np) => (t.walkers task).setSlot (a.lastCells i, np % sim.perCell)
    | none => t.walkers task
  /-- The cells of the particles. -/
  target : ∀ task i, (t.phase task).target = some i → Target space valid i (t.walkers task)
  /-- The variables of the tasks. -/
  stage : ∀ task, Stage valid a t.toStore (t.walkers task) (t.phase task)

variable {space valid} {a a' : Rebuild α} {t t' : Tasks α}

/-- The cell is inside the domain. -/
theorem Target.inside {index : Nat} {walker : Walker} (target : Target space valid index walker) :
    ∃ c, sim.Inside c ∧ sim.index c = index := by
  obtain ⟨source, rest, cell2, j, -, -, same⟩ := target
  exact ⟨_, sim.inside_cellOf space _, same.symm⟩

omit [Sub α] [Div α] in
/-- The variables of a task say the same about a state with the same values. -/
theorem Stage.keep {st st' : Store α} {walker : Walker} {phase : Phase}
    (stage : Stage valid a st walker phase)
    (last : ∀ i, phase.section = some i → a'.lastCells i = a.lastCells i)
    (count : ∀ i, phase.section = some i → a'.cnumPars i = a.cnumPars i)
    (stored : ∀ i, phase.section = some i → st'.cnumPars i = st.cnumPars i)
    (next : ∀ i cell, phase.section = some i → a.mem.next cell = some (a.lastCells i) →
      InUse a.pools cell → a'.mem.next cell = a.mem.next cell ∧ InUse a'.pools cell)
    (particle : ∀ slot, walker.slot = some slot → st'.mem.particle slot = st.mem.particle slot) :
    Stage valid a' st' walker phase := by
  cases phase with
  | idle => exact stage
  | lock => trivial
  | unlock => trivial
  | last => trivial
  | count index cell => exact stage.trans (last index rfl).symm
  | test index cell np =>
    exact ⟨stage.1.trans (last index rfl).symm, stage.2.trans (count index rfl).symm⟩
  | get index cell np =>
    exact ⟨stage.1.trans (last index rfl).symm, stage.2.1.trans (count index rfl).symm, stage.2.2⟩
  | link index cell np block =>
    obtain ⟨same, linked, used⟩ := stage
    obtain ⟨kept, still⟩ := next index cell rfl linked used
    refine ⟨same.trans (last index rfl).symm, ?_, still⟩
    rw [kept, linked, last index rfl]
  | follow index cell np =>
    obtain ⟨linked, used⟩ := stage
    obtain ⟨kept, still⟩ := next index cell rfl linked used
    refine ⟨?_, still⟩
    rw [kept, linked, last index rfl]
  | setLast index cell np => exact stage.trans (last index rfl).symm
  | load index cell np => exact stage.trans (last index rfl).symm
  | store index cell np value =>
    exact ⟨stage.1.trans (last index rfl).symm, stage.2.trans (stored index rfl).symm⟩
  | copy fields =>
    obtain ⟨source, rest, cell2, j, slot, here, copied⟩ := stage
    refine ⟨source, rest, cell2, j, slot, here, fun i below known => ?_⟩
    rw [particle slot (by rw [here])]
    exact copied i below known

namespace Matches

/-- A task that has a slot has a particle. -/
theorem started (matching : Matches space valid a t) {task : Nat} {slot : Slot}
    (takes : (a.walkers task).slot = some slot) :
    ∃ source rest, (a.walkers task).cells = source :: rest := by
  have walker := matching.walker task
  have stage := matching.stage task
  cases here : (t.phase task).taken with
  | some pair =>
    obtain ⟨i, np⟩ := pair
    obtain ⟨source, rest, cell2, j, same, -⟩ := matching.target task i
      (Phase.target_of_section (Phase.section_of_taken here))
    rw [walker, here, same]
    exact ⟨source, rest, rfl⟩
  | none =>
    rw [here] at walker
    rw [walker] at takes ⊢
    cases phase : t.phase task with
    | idle =>
      rw [phase] at stage
      exact absurd (stage.symm.trans takes) nofun
    | copy fields =>
      rw [phase] at stage
      obtain ⟨source, rest, _, _, _, same, -⟩ := stage
      exact ⟨source, rest, by rw [same]⟩
    | _ =>
      obtain ⟨source, rest, cell2, j, same, -⟩ := matching.target task _ (by rw [phase]; rfl)
      exact ⟨source, rest, by rw [same]⟩

/-- A task that is not at the end of taking a slot is the same in both states. -/
theorem walker_eq (matching : Matches space valid a t) {task : Nat}
    (none : (t.phase task).taken = none) : a.walkers task = t.walkers task := by
  rw [matching.walker task, none]

/-- A task that has a slot of its own has taken it. -/
theorem walker_of_slot (matching : Matches space valid a t) {task : Nat} {slot : Slot}
    (takes : (t.walkers task).slot = some slot) : a.walkers task = t.walkers task := by
  refine matching.walker_eq ?_
  cases here : (t.phase task).taken with
  | none => rfl
  | some pair =>
    obtain ⟨source, rest, cell2, j, same, -⟩ := matching.target task pair.1
      (Phase.target_of_section (Phase.section_of_taken here))
    rw [same] at takes
    cases takes

/-- No other task has still to store the count of a cell between whose accesses a task is. -/
theorem count_eq (matching : Matches space valid a t) {task i : Nat}
    (inside : (t.phase task).section = some i) (none : (t.phase task).taken = none) :
    a.cnumPars i = t.cnumPars i := by
  refine matching.free i fun other np taken => ?_
  obtain rfl := matching.exclusive task other i inside (Phase.section_of_taken taken)
  rw [none] at taken
  cases taken

/-- A phase with the same value as before. -/
theorem update_same {β : Type} (f : Phase → β) {phases : Nat → Phase} {task : Nat} {phase : Phase}
    (same : f phase = f (phases task)) (other : Nat) :
    f (Function.update phases task phase other) = f (phases other) := by
  by_cases here : other = task
  · rw [here, Function.update_self, same]
  · rw [Function.update_of_ne here]

section Same

variable {task : Nat} {phase : Phase}

/-- A cell without a task that has taken a place has its count. -/
theorem free_same (matching : Matches space valid a t) (same : phase.taken = (t.phase task).taken)
    (i : Nat) (none : ∀ other np,
      (Function.update t.phase task phase other).taken ≠ some (i, np)) :
    a.cnumPars i = t.cnumPars i := by
  refine matching.free i fun other np => ?_
  rw [← update_same Phase.taken same other]
  exact none other np

/-- A cell with one has a particle more. -/
theorem taken_same (matching : Matches space valid a t) (same : phase.taken = (t.phase task).taken)
    (other i np : Nat) (here : (Function.update t.phase task phase other).taken = some (i, np)) :
    a.cnumPars i = t.cnumPars i + 1 := by
  refine matching.taken other i np ?_
  rw [← update_same Phase.taken same other]
  exact here

/-- A cell without a task that is about to set its last block has that block. -/
theorem last_same (matching : Matches space valid a t)
    (same : phase.relasts = (t.phase task).relasts) (i : Nat)
    (none : ∀ other, (Function.update t.phase task phase other).relasts ≠ some i) :
    a.lastCells i = t.lastCells i := by
  refine matching.last i fun other => ?_
  rw [← update_same Phase.relasts same other]
  exact none other

/-- A block without a task that is about to link it has its link. -/
theorem next_same (matching : Matches space valid a t)
    (same : phase.relinks = (t.phase task).relinks) (x : Addr)
    (none : ∀ other, (Function.update t.phase task phase other).relinks ≠ some x) :
    a.mem.next x = t.mem.next x := by
  refine matching.next x fun other => ?_
  rw [← update_same Phase.relinks same other]
  exact none other

/-- A task that stays between the accesses to a cell is there alone. -/
theorem alone_same (matching : Matches space valid a t)
    (same : phase.section = (t.phase task).section) (i : Nat) (inside : phase.section = some i)
    (other : Nat) (apart : other ≠ task) : (t.phase other).section ≠ some i := fun here =>
  apart (matching.exclusive other task i here (same ▸ inside))

end Same

/-- A step of one task: what holds of the other tasks is left to show for the changes of the shared
variables only. -/
theorem of_step (matching : Matches space valid a t) {task : Nat} {phase : Phase}
    (phases : t'.phase = Function.update t.phase task phase)
    (walkers : ∀ other, other ≠ task → t'.walkers other = t.walkers other)
    (walkersA : ∀ other, other ≠ task → a'.walkers other = a.walkers other)
    (pools : a'.pools = t'.pools) (returned : a'.returned = t'.returned)
    (accelerations : a'.mem.a = t'.mem.a) (densities : a'.mem.density = t'.mem.density)
    (free : ∀ i, (∀ other np, (t'.phase other).taken ≠ some (i, np)) →
      a'.cnumPars i = t'.cnumPars i)
    (taken : ∀ other i np, (t'.phase other).taken = some (i, np) →
      a'.cnumPars i = t'.cnumPars i + 1)
    (last : ∀ i, (∀ other, (t'.phase other).relasts ≠ some i) → a'.lastCells i = t'.lastCells i)
    (next : ∀ x, (∀ other, (t'.phase other).relinks ≠ some x) → a'.mem.next x = t'.mem.next x)
    (particle : ∀ x, (∀ other, (a'.walkers other).slot ≠ some x) →
      a'.mem.particle x = t'.mem.particle x)
    (alone : ∀ i, phase.section = some i → ∀ other, other ≠ task →
      (t.phase other).section ≠ some i)
    (walker : a'.walkers task =
      match phase.taken with
      | some (i, np) => (t'.walkers task).setSlot (a'.lastCells i, np % sim.perCell)
      | none => t'.walkers task)
    (target : ∀ i, phase.target = some i → Target space valid i (t'.walkers task))
    (stage : Stage valid a' t'.toStore (t'.walkers task) phase)
    (others : ∀ other, other ≠ task →
      (∀ i, (t.phase other).section = some i → a'.lastCells i = a.lastCells i) ∧
        Stage valid a' t'.toStore (t.walkers other) (t.phase other)) :
    Matches space valid a' t' := by
  refine ⟨pools, returned, accelerations, densities, free, taken, last, next, particle,
    ?_, ?_, ?_, ?_⟩
  · intro one other i first second
    rw [phases] at first second
    by_cases here : one = task
    · subst here
      by_cases there : other = one
      · exact there.symm
      · rw [Function.update_self] at first
        rw [Function.update_of_ne there] at second
        exact absurd second (alone i first other there)
    · rw [Function.update_of_ne here] at first
      by_cases there : other = task
      · subst there
        rw [Function.update_self] at second
        exact absurd first (alone i second one here)
      · rw [Function.update_of_ne there] at second
        exact matching.exclusive one other i first second
  · intro other
    rw [phases]
    by_cases mine : other = task
    · subst mine
      rw [Function.update_self]
      exact walker
    · rw [Function.update_of_ne mine, walkersA other mine, walkers other mine,
        matching.walker other]
      cases here : (t.phase other).taken with
      | none => rfl
      | some pair =>
        dsimp only
        rw [(others other mine).1 pair.1 (Phase.section_of_taken here)]
  · intro other i here
    rw [phases] at here
    by_cases mine : other = task
    · subst mine
      rw [Function.update_self] at here
      exact target i here
    · rw [Function.update_of_ne mine] at here
      rw [walkers other mine]
      exact matching.target other i here
  · intro other
    rw [phases]
    by_cases mine : other = task
    · subst mine
      rw [Function.update_self]
      exact stage
    · rw [Function.update_of_ne mine, walkers other mine]
      exact (others other mine).2

/-- A step that only changes the phase of a task. -/
theorem goto (matching : Matches space valid a t) {task : Nat} {phase : Phase}
    (rebuild : t'.toRebuild = t.toRebuild) (phases : t'.phase = Function.update t.phase task phase)
    (taken : phase.taken = (t.phase task).taken) (relinks : phase.relinks = (t.phase task).relinks)
    (relasts : phase.relasts = (t.phase task).relasts)
    (target : ∀ i, phase.target = some i → Target space valid i (t.walkers task))
    (alone : ∀ i, phase.section = some i → ∀ other, other ≠ task →
      (t.phase other).section ≠ some i)
    (stage : Stage valid a t.toStore (t.walkers task) phase) : Matches space valid a t' := by
  obtain ⟨_, _, owner, used⟩ := t'
  dsimp only at rebuild phases
  subst rebuild phases
  refine matching.of_step rfl (fun _ _ => rfl) (fun _ _ => rfl) matching.pools matching.returned
    matching.accelerations matching.densities (matching.free_same taken)
    (matching.taken_same taken) (matching.last_same relasts) (matching.next_same relinks)
    matching.particle alone ?_ target stage fun other _ => ⟨fun _ _ => rfl, matching.stage other⟩
  rw [taken]
  exact matching.walker task

section Steps

variable {task i np : Nat} {cell : Addr}

/-- The block is linked to the last one. -/
theorem link {block : Addr} (matching : Matches space valid a t)
    (phase : t.phase task = .link i cell np block) :
    Matches space valid a
      ({ t with mem := t.mem.setNext cell (some block) }.goto task (.follow i cell np)) := by
  have stage := matching.stage task
  have walker := matching.walker task
  rw [phase] at stage walker
  obtain ⟨rfl, linked, used⟩ := stage
  refine matching.of_step rfl (fun _ _ => rfl) (fun _ _ => rfl) matching.pools matching.returned
    matching.accelerations matching.densities (matching.free_same (by rw [phase]; rfl))
    (matching.taken_same (by rw [phase]; rfl)) (matching.last_same (by rw [phase]; rfl)) ?_
    matching.particle (matching.alone_same (by rw [phase]; rfl)) walker
    (fun i' here => matching.target task i' (by rw [phase]; exact here)) ⟨linked, used⟩
    fun other _ => ⟨fun _ _ => rfl, ?_⟩
  · intro x none
    show a.mem.next x = Function.update t.mem.next cell (some _) x
    by_cases here : x = cell
    · rw [here, Function.update_self, linked]
    · rw [Function.update_of_ne here]
      refine matching.next x fun other relinks => ?_
      by_cases mine : other = task
      · rw [mine, phase] at relinks
        exact here (Option.some.inj relinks).symm
      · refine none other ?_
        show (Function.update t.phase task _ other).relinks = some x
        rw [Function.update_of_ne mine]
        exact relinks
  · exact (matching.stage other).keep (fun _ _ => rfl) (fun _ _ => rfl) (fun _ _ => rfl)
      (fun _ _ _ _ used => ⟨rfl, used⟩) fun _ _ => rfl

/-- The last block is set. -/
theorem setLast (matching : Matches space valid a t) (phase : t.phase task = .setLast i cell np) :
    Matches space valid a
      ({ t with lastCells := Function.update t.lastCells i cell }.goto task (.load i cell np)) := by
  have stage := matching.stage task
  have walker := matching.walker task
  rw [phase] at stage walker
  have now : cell = a.lastCells i := stage
  refine matching.of_step rfl (fun _ _ => rfl) (fun _ _ => rfl) matching.pools matching.returned
    matching.accelerations matching.densities (matching.free_same (by rw [phase]; rfl))
    (matching.taken_same (by rw [phase]; rfl)) ?_ (matching.next_same (by rw [phase]; rfl))
    matching.particle (matching.alone_same (by rw [phase]; rfl)) walker
    (fun i' here => matching.target task i' (by rw [phase]; exact here)) now
    fun other _ => ⟨fun _ _ => rfl, ?_⟩
  · intro i' none
    show a.lastCells i' = Function.update t.lastCells i cell i'
    by_cases here : i' = i
    · rw [here, Function.update_self, now]
    · rw [Function.update_of_ne here]
      refine matching.last i' fun other relasts => ?_
      by_cases mine : other = task
      · rw [mine, phase] at relasts
        exact here (Option.some.inj relasts).symm
      · refine none other ?_
        show (Function.update t.phase task _ other).relasts = some i'
        rw [Function.update_of_ne mine]
        exact relasts
  · exact (matching.stage other).keep (fun _ _ => rfl) (fun _ _ => rfl) (fun _ _ => rfl)
      (fun _ _ _ _ used => ⟨rfl, used⟩) fun _ _ => rfl

/-- The count is stored, and the task begins to copy. -/
theorem storeCount {value : Nat} (matching : Matches space valid a t)
    (phase : t.phase task = .store i cell np value) :
    Matches space valid a
      ({ t with
        cnumPars := Function.update t.cnumPars i (value + 1)
        walkers := Function.update t.walkers task
          ((t.walkers task).setSlot (cell, np % sim.perCell)) }.goto task (.copy 0)) := by
  have stage := matching.stage task
  have walker := matching.walker task
  rw [phase] at stage walker
  obtain ⟨now, loaded⟩ := stage
  have mine : (t.phase task).section = some i := by rw [phase]; rfl
  have others : ∀ other i', other ≠ task → (t.phase other).section = some i' → i' ≠ i := by
    rintro other i' apart here rfl
    exact apart (matching.exclusive other task i' here mine)
  refine matching.of_step rfl ?_ (fun _ _ => rfl) matching.pools matching.returned
    matching.accelerations matching.densities ?_ ?_ (matching.last_same (by rw [phase]; rfl))
    (matching.next_same (by rw [phase]; rfl)) matching.particle nofun ?_ nofun ?_
    fun other apart => ⟨fun _ _ => rfl, ?_⟩
  · intro other apart
    exact Function.update_of_ne apart _ _
  · intro i' none
    show a.cnumPars i' = Function.update t.cnumPars i (value + 1) i'
    by_cases here : i' = i
    · rw [here, Function.update_self, loaded]
      exact matching.taken task i np (by rw [phase]; rfl)
    · rw [Function.update_of_ne here]
      refine matching.free i' fun other np' taken => ?_
      by_cases same : other = task
      · rw [same, phase] at taken
        exact here (Prod.mk.inj (Option.some.inj taken)).1.symm
      · refine none other np' ?_
        show (Function.update t.phase task _ other).taken = some (i', np')
        rw [Function.update_of_ne same]
        exact taken
  · intro other i' np' taken
    have same : other ≠ task := by
      rintro rfl
      have taken : (Function.update t.phase other (.copy 0) other).taken = some (i', np') := taken
      rw [Function.update_self] at taken
      cases taken
    have before : (t.phase other).taken = some (i', np') := by
      rw [← Function.update_of_ne same (.copy 0) t.phase]
      exact taken
    show a.cnumPars i' = Function.update t.cnumPars i (value + 1) i' + 1
    rw [Function.update_of_ne (others other i' same (Phase.section_of_taken before))]
    exact matching.taken other i' np' before
  · show a.walkers task = Function.update t.walkers task _ task
    rw [Function.update_self, walker, now]
    rfl
  · obtain ⟨source, rest, cell2, j, here, -⟩ :=
      matching.target task i (Phase.target_of_section mine)
    refine ⟨source, rest, cell2, j, (cell, np % sim.perCell), ?_, nofun⟩
    show Function.update t.walkers task _ task = _
    rw [Function.update_self, here]
    rfl
  · refine (matching.stage other).keep (fun _ _ => rfl) (fun _ _ => rfl) ?_
      (fun _ _ _ _ used => ⟨rfl, used⟩) fun _ _ => rfl
    intro i' here
    exact Function.update_of_ne (others other i' apart here) _ _

end Steps

end Matches

end Matching

section Copying

variable {α : Type} [Sub α] [Div α] {sim : Sim} {base : Nat} {store : Store α} {space : Space α}
  {valid : Valid sim base store} {holder : Addr → Option (Holder Nat Use)}
  {dest : Coord → Nat → Addr} {placed : Coord → List ParticleId} {a : Rebuild α} {t : Tasks α}
  {task : Nat} {source : Coord} {rest : List Coord} {cell2 : Addr} {j : Nat}

namespace Matches

/-- A task reads the particle of its number. -/
theorem source_particle (matching : Matches space valid a t) (partitioned : sim.Partitioned)
    (inv : Inv space valid holder dest placed a) {slot : Option Slot}
    (here : t.walkers task = ⟨source :: rest, some cell2, j, slot⟩)
    (same : a.walkers task = t.walkers task) :
    t.mem.particle (cell2, j % sim.perCell) = store.mem.particle (valid.slot (source, j)) := by
  rw [here] at same
  have cells : (a.walkers task).cells = source :: rest := by rw [same]
  have reads : (a.walkers task).cell2 = some cell2 := by rw [same]
  have old := inv.source_particle partitioned cells reads
  rw [same] at old
  rw [← old]
  refine (matching.particle _ fun other takes => ?_).symm
  obtain ⟨source', rest', cells'⟩ := matching.started takes
  exact inv.source_ne_slot partitioned cells reads cells' takes rfl

/-- One of the assignments of the copy. -/
theorem copyField (matching : Matches space valid a t) (partitioned : sim.Partitioned)
    (inv : Inv space valid holder dest placed a) {slot : Slot} {fields : Nat}
    (phase : t.phase task = .copy fields) (known : fields < 9)
    (here : t.walkers task = ⟨source :: rest, some cell2, j, some slot⟩) :
    Matches space valid a
      ({ t with mem := t.mem.copyField slot (cell2, j % sim.perCell) fields }.goto task
        (.copy (fields + 1))) := by
  have stage := matching.stage task
  rw [phase] at stage
  obtain ⟨_, _, _, _, _, again, copied⟩ := stage
  rw [here] at again
  cases again
  have same : a.walkers task = t.walkers task := matching.walker_of_slot (by rw [here])
  have read := matching.source_particle partitioned inv here same
  have mine : (a.walkers task).slot = some slot := by rw [same, here]
  have apart : ∀ other x, other ≠ task → (a.walkers other).slot = some x → x ≠ slot := by
    rintro other x apart takes rfl
    obtain ⟨source', rest', cells'⟩ := matching.started takes
    obtain ⟨source'', rest'', cells⟩ := matching.started mine
    exact apart (inv.slot_injective partitioned cells' takes cells mine)
  refine matching.of_step rfl (fun _ _ => rfl) (fun _ _ => rfl) matching.pools matching.returned
    ?_ ?_ (matching.free_same (by rw [phase]; rfl)) (matching.taken_same (by rw [phase]; rfl))
    (matching.last_same (by rw [phase]; rfl)) ?_ ?_ nofun same nofun ?_
    fun other distinct => ⟨fun _ _ => rfl, ?_⟩
  · exact matching.accelerations.trans (Mem.a_copyField ..).symm
  · exact matching.densities.trans (Mem.density_copyField ..).symm
  · intro x none
    show a.mem.next x = (t.mem.copyField slot _ fields).next x
    rw [Mem.next_copyField]
    have same : (Phase.copy (fields + 1)).relinks = (t.phase task).relinks := by rw [phase]; rfl
    exact matching.next_same same x none
  · intro x free
    refine (matching.particle x free).trans (Mem.copyField_of_ne _ ?_ _).symm
    rintro rfl
    exact free task mine
  · refine ⟨source, rest, cell2, j, slot, here, fun i below small => ?_⟩
    show ((t.mem.copyField slot _ fields).particle slot).field i = _
    rw [Mem.copyField_self _ known small, read]
    split
    case isTrue same => rw [same]
    case isFalse old => exact copied i (by omega) small
  · refine (matching.stage other).keep (fun _ _ => rfl) (fun _ _ => rfl) (fun _ _ => rfl)
      (fun _ _ _ _ used => ⟨rfl, used⟩) fun x takes => Mem.copyField_of_ne _ ?_ _
    exact apart other x distinct (by rw [matching.walker_of_slot takes, takes])

end Matches

end Copying

section Taking

variable {α : Type} [Sub α] [Div α] {sim : Sim} {base : Nat} {store : Store α} {space : Space α}
  {valid : Valid sim base store} {holder : Addr → Option (Holder Nat Use)}
  {dest : Coord → Nat → Addr} {placed : Coord → List ParticleId} {a : Rebuild α} {t : Tasks α}
  {task i np : Nat} {cell : Addr}

/-- A thread takes a slot in the cell of its particle. -/
theorem Inv.insert_eq (inv : Inv space valid holder dest placed a) (partitioned : sim.Partitioned)
    (target : Target space valid i (a.walkers task)) (block : Addr) (fresh : List Addr) :
    a.insert sim space task block fresh =
      (a.toStore.takeSlot sim task i block fresh).map fun taken =>
        Rebuild.setWalker task ((a.walkers task).setSlot taken.1)
          { a with toStore := taken.2 } := by
  obtain ⟨source, rest, cell2, j, here, less, index⟩ := target
  have cells : (a.walkers task).cells = source :: rest := by rw [here]
  have read := inv.source_particle partitioned cells (by rw [here])
  rw [here] at read
  have position : a.mem.p (cell2, j % sim.perCell) = store.mem.p (valid.slot (source, j)) :=
    congrArg Particle.p read
  unfold Rebuild.insert
  dsimp only
  rw [here]
  dsimp only
  rw [if_pos less, position, ← index]
  cases a.toStore.takeSlot sim task i block fresh with
  | none => rfl
  | some taken => rfl

namespace Matches

/-- No other task is between the accesses to a cell between whose accesses a task is. -/
theorem index_ne (matching : Matches space valid a t) (mine : (t.phase task).section = some i)
    {other i' : Nat} (apart : other ≠ task) (here : (t.phase other).section = some i') :
    i' ≠ i := by
  rintro rfl
  exact apart (matching.exclusive other task i' here mine)

omit [Sub α] [Div α] in
/-- A task that does not have a value after its step, and did not have it before. -/
theorem before_of_after {β : Type} (f : Phase → Option β) {phase : Phase}
    (before : f (t.phase task) = none) {value : β}
    (after : ∀ other, f (Function.update t.phase task phase other) ≠ some value) (other : Nat) :
    f (t.phase other) ≠ some value := by
  intro here
  by_cases mine : other = task
  · rw [mine, before] at here
    cases here
  · refine after other ?_
    rw [Function.update_of_ne mine]
    exact here

section Taken

variable {phase : Phase}

/-- A slot counts as taken: the other counts are as before. -/
theorem free_taken (matching : Matches space valid a t) (before : (t.phase task).taken = none)
    (after : phase.taken = some (i, np)) (value : Nat) (i' : Nat)
    (none : ∀ other np', (Function.update t.phase task phase other).taken ≠ some (i', np')) :
    Function.update a.cnumPars i value i' = t.cnumPars i' := by
  rw [Function.update_of_ne]
  · exact matching.free i' fun other np' =>
      before_of_after Phase.taken before (fun other => none other np') other
  · rintro rfl
    refine none task np ?_
    rw [Function.update_self]
    exact after

/-- A slot counts as taken: its count is still to be stored. -/
theorem taken_taken (matching : Matches space valid a t)
    (mine : (t.phase task).section = some i) (after : phase.taken = some (i, np))
    (count : t.cnumPars i = np) (other i' np' : Nat)
    (here : (Function.update t.phase task phase other).taken = some (i', np')) :
    Function.update a.cnumPars i (np + 1) i' = t.cnumPars i' + 1 := by
  by_cases apart : other = task
  · rw [apart, Function.update_self, after] at here
    cases here
    rw [Function.update_self, count]
  · rw [Function.update_of_ne apart] at here
    rw [Function.update_of_ne (matching.index_ne mine apart (Phase.section_of_taken here))]
    exact matching.taken other i' np' here

/-- A slot counts as taken: the particles of the other slots are as before. -/
theorem particle_taken (matching : Matches space valid a t)
    (target : Target space valid i (a.walkers task)) {walker : Walker} (x : Slot)
    (free : ∀ other, (Function.update a.walkers task walker other).slot ≠ some x) :
    a.mem.particle x = t.mem.particle x := by
  refine matching.particle x fun other takes => ?_
  by_cases mine : other = task
  · obtain ⟨_, _, _, _, here, -⟩ := target
    rw [mine, here] at takes
    cases takes
  · refine free other ?_
    rw [Function.update_of_ne mine]
    exact takes

end Taken

/-- The last block has room, and the slot counts as taken. -/
theorem takeRoom (matching : Matches space valid a t) (partitioned : sim.Partitioned)
    (inv : Inv space valid holder dest placed a) (phase : t.phase task = .test i cell np)
    (room : ¬(np % sim.perCell = 0 ∧ t.cnumPars i ≠ 0)) :
    ∃ next, a.insert sim space task 0 [] = some next ∧
      Matches space valid next (t.goto task (.load i cell np)) := by
  have stage := matching.stage task
  have same : a.walkers task = t.walkers task := matching.walker_eq (by rw [phase]; rfl)
  have target : Target space valid i (a.walkers task) := by
    rw [same]
    exact matching.target task i (by rw [phase]; rfl)
  have mine : (t.phase task).section = some i := by rw [phase]; rfl
  have before : (t.phase task).taken = none := by rw [phase]; rfl
  have count := matching.count_eq mine before
  rw [phase] at stage
  obtain ⟨now, read⟩ := stage
  have taken : a.toStore.takeSlot sim task i 0 [] = some ((a.lastCells i, np % sim.perCell),
      { a.toStore with cnumPars := Function.update a.cnumPars i (np + 1) }) := by
    unfold Store.takeSlot
    dsimp only
    rw [← read, if_neg (by rw [read, count] at room ⊢; exact room)]
  refine ⟨{ a with
    cnumPars := Function.update a.cnumPars i (np + 1)
    walkers := Function.update a.walkers task
      ((a.walkers task).setSlot (a.lastCells i, np % sim.perCell)) }, ?_, ?_⟩
  · rw [inv.insert_eq partitioned target, taken]
    rfl
  refine matching.of_step rfl (fun _ _ => rfl) (fun other apart => Function.update_of_ne apart _ _)
    matching.pools matching.returned matching.accelerations matching.densities
    (matching.free_taken before rfl _) (matching.taken_taken mine rfl (count.symm.trans read.symm))
    (matching.last_same (by rw [phase]; rfl)) (matching.next_same (by rw [phase]; rfl))
    (matching.particle_taken target) (matching.alone_same (by rw [phase]; rfl)) ?_
    (fun i' here => matching.target task i' (by rw [phase]; exact here)) now
    fun other apart => ⟨fun _ _ => rfl, ?_⟩
  · show Function.update a.walkers task _ task = _
    rw [Function.update_self, same]
    rfl
  · exact (matching.stage other).keep (fun _ _ => rfl)
      (fun _ here => Function.update_of_ne (matching.index_ne mine apart here) _ _)
      (fun _ _ => rfl) (fun _ _ _ _ used => ⟨rfl, used⟩) fun _ _ => rfl

/-- A block is taken from the pool, and the slot in it counts as taken. -/
theorem takeBlock (matching : Matches space valid a t) (partitioned : sim.Partitioned)
    (inv : Inv space valid holder dest placed a) (phase : t.phase task = .get i cell np)
    {block : Addr} {fresh : List Addr} {st : Store α}
    (granted : t.toStore.getcell sim task block fresh = some st) (used : List (Nat × Nat)) :
    ∃ next, a.insert sim space task block fresh = some next ∧ Matches space valid next
      ({ t with toStore := st, used }.goto task (.link i cell np block)) := by
  have stage := matching.stage task
  have same : a.walkers task = t.walkers task := matching.walker_eq (by rw [phase]; rfl)
  have target : Target space valid i (a.walkers task) := by
    rw [same]
    exact matching.target task i (by rw [phase]; rfl)
  have mine : (t.phase task).section = some i := by rw [phase]; rfl
  have before : (t.phase task).taken = none := by rw [phase]; rfl
  have count := matching.count_eq mine before
  rw [phase] at stage
  obtain ⟨rfl, read, full, nonempty⟩ := stage
  obtain ⟨pools, gives, rfl⟩ : ∃ pools, t.pools.grant sim.Apart task block fresh = some pools ∧
      { t.toStore with pools, mem := t.mem.setNext block none } = st := by
    obtain ⟨pools, gives, same⟩ := Option.bind_eq_some_iff.mp granted
    exact ⟨pools, gives, Option.some.inj same⟩
  rw [← matching.pools] at gives
  obtain ⟨last, inUse⟩ : a.mem.next (a.lastCells i) = none ∧ InUse a.pools (a.lastCells i) := by
    obtain ⟨c, inside, rfl⟩ := target.inside
    refine ⟨?_, inv.lastCells_inUse inside⟩
    rw [inv.filling.lastCell inside, inv.filling.last inside]
  have taken : a.toStore.takeSlot sim task i block fresh = some ((block, np % sim.perCell),
      { a.toStore with
        pools
        mem := (a.mem.setNext block none).setNext (a.lastCells i) (some block)
        lastCells := Function.update a.lastCells i block
        cnumPars := Function.update a.cnumPars i (np + 1) }) := by
    unfold Store.takeSlot Store.getcell
    dsimp only
    rw [← read, if_pos ⟨full, nonempty⟩, gives]
    rfl
  refine ⟨{ a with
    pools
    mem := (a.mem.setNext block none).setNext (a.lastCells i) (some block)
    lastCells := Function.update a.lastCells i block
    cnumPars := Function.update a.cnumPars i (np + 1)
    walkers := Function.update a.walkers task
      ((a.walkers task).setSlot (block, np % sim.perCell)) }, ?_, ?_⟩
  · rw [inv.insert_eq partitioned target, taken]
    rfl
  refine matching.of_step rfl (fun _ _ => rfl) (fun other apart => Function.update_of_ne apart _ _)
    rfl matching.returned matching.accelerations matching.densities
    (matching.free_taken before rfl _) (matching.taken_taken mine rfl (count.symm.trans read.symm))
    ?_ ?_ (matching.particle_taken target) (matching.alone_same (by rw [phase]; rfl)) ?_
    (fun i' here => matching.target task i' (by rw [phase]; exact here)) ?_
    fun other apart =>
      ⟨fun _ here => Function.update_of_ne (matching.index_ne mine apart here) _ _, ?_⟩
  · intro i' none
    show Function.update a.lastCells i block i' = t.lastCells i'
    rw [Function.update_of_ne]
    · exact matching.last i' (before_of_after Phase.relasts (by rw [phase]; rfl) none)
    · rintro rfl
      refine none task ?_
      show (Function.update t.phase task _ task).relasts = _
      rw [Function.update_self]
      rfl
  · intro x unlinked
    show Function.update (Function.update a.mem.next block none) (a.lastCells i) (some block) x =
      Function.update t.mem.next block none x
    rw [Function.update_of_ne]
    · by_cases new : x = block
      · rw [new, Function.update_self, Function.update_self]
      · rw [Function.update_of_ne new, Function.update_of_ne new]
        exact matching.next x (before_of_after Phase.relinks (by rw [phase]; rfl) unlinked)
    · rintro rfl
      refine unlinked task ?_
      show (Function.update t.phase task _ task).relinks = _
      rw [Function.update_self]
      rfl
  · show Function.update a.walkers task ((a.walkers task).setSlot (block, np % sim.perCell)) task =
      (t.walkers task).setSlot (Function.update a.lastCells i block i, np % sim.perCell)
    rw [Function.update_self, Function.update_self, same]
  · show block = Function.update a.lastCells i block i ∧
      Function.update (Function.update a.mem.next block none) (a.lastCells i) (some block)
        (a.lastCells i) = some (Function.update a.lastCells i block i) ∧ InUse pools (a.lastCells i)
    rw [Function.update_self, Function.update_self]
    exact ⟨rfl, rfl, (inUse.grant gives).2⟩
  · refine (matching.stage other).keep
      (fun _ here => Function.update_of_ne (matching.index_ne mine apart here) _ _)
      (fun _ here => Function.update_of_ne (matching.index_ne mine apart here) _ _)
      (fun _ _ => rfl) ?_ fun _ _ => rfl
    intro i' x here linked used
    refine ⟨?_, (used.grant gives).2⟩
    show Function.update (Function.update a.mem.next block none) (a.lastCells i) (some block) x =
      a.mem.next x
    rw [Function.update_of_ne, Function.update_of_ne (used.grant gives).1]
    rintro rfl
    rw [last] at linked
    cases linked

end Matches

end Taking

section Passing

variable {α : Type} [Sub α] [Div α] {sim : Sim} {base : Nat} {store : Store α} {space : Space α}
  {valid : Valid sim base store} {holder : Addr → Option (Holder Nat Use)}
  {dest : Coord → Nat → Addr} {placed : Coord → List ParticleId} {a : Rebuild α} {t : Tasks α}
  {task : Nat} {source : Coord} {rest : List Coord} {cell2 : Addr} {j : Nat}

namespace Matches

/-- A block that is not linked to the last block of a new chain is returned. -/
theorem returnOverflow (matching : Matches space valid a t) {block : Addr} (task index : Nat)
    (link : Option Addr) (unlinked : ∀ c, sim.Inside c → ∀ cell,
      a.mem.next cell = some (a.lastCells (sim.index c)) → cell ≠ block) (used : List (Nat × Nat)) :
    Matches space valid (a.returnOverflow sim task index block link)
      { t with toRebuild := t.toRebuild.returnOverflow sim task index block link, used } := by
  unfold Rebuild.returnOverflow
  split
  case isFalse =>
    exact ⟨matching.pools, matching.returned, matching.accelerations, matching.densities,
      matching.free, matching.taken, matching.last, matching.next, matching.particle,
      matching.exclusive, matching.walker, matching.target, matching.stage⟩
  have phases : t.phase = Function.update t.phase task (t.phase task) :=
    (Function.update_eq_self ..).symm
  have stage : ∀ other, Stage valid
      { a with
        toStore := a.toStore.returncell task block link
        returned := block :: a.returned } (t.toStore.returncell task block link)
      (t.walkers other) (t.phase other) := by
    intro other
    refine (matching.stage other).keep (fun _ _ => rfl) (fun _ _ => rfl) (fun _ _ => rfl) ?_
      fun _ _ => rfl
    intro i cell here linked inUse
    obtain ⟨c, inside, rfl⟩ :=
      (matching.target other i (Phase.target_of_section here)).inside
    have apart := unlinked c inside cell linked
    exact ⟨Function.update_of_ne apart _ _, inUse.giveBack apart task⟩
  refine matching.of_step phases (fun _ _ => rfl) (fun _ _ => rfl) ?_ ?_ matching.accelerations
    matching.densities matching.free matching.taken matching.last ?_ matching.particle ?_
    (matching.walker task) (matching.target task) (stage task)
    fun other _ => ⟨fun _ _ => rfl, stage other⟩
  · show a.pools.giveBack task block = t.pools.giveBack task block
    rw [matching.pools]
  · show block :: a.returned = block :: t.returned
    rw [matching.returned]
  · intro x none
    show Function.update a.mem.next block link x = Function.update t.mem.next block link x
    by_cases here : x = block
    · rw [here, Function.update_self, Function.update_self]
    · rw [Function.update_of_ne here, Function.update_of_ne here]
      exact matching.next x none
  · exact fun i here other apart inside => apart (matching.exclusive other task i inside here)

/-- A task goes on to its next particle or cell. -/
theorem setWalker (matching : Matches space valid a t) {walker : Walker} {mem : Mem α}
    (slot : walker.slot = none) (taken : (t.phase task).taken = none)
    (relinks : (t.phase task).relinks = none) (relasts : (t.phase task).relasts = none)
    (next : mem.next = a.mem.next) (accelerations : mem.a = a.mem.a)
    (densities : mem.density = a.mem.density)
    (particle : ∀ x, (∀ other, other ≠ task → (a.walkers other).slot ≠ some x) →
      mem.particle x = t.mem.particle x) :
    Matches space valid (Rebuild.setWalker task walker { a with mem })
      ({ t with toRebuild := t.toRebuild.setWalker task walker }.goto task .idle) := by
  refine matching.of_step rfl (fun other apart => Function.update_of_ne apart _ _)
    (fun other apart => Function.update_of_ne apart _ _) matching.pools matching.returned
    (accelerations.trans matching.accelerations) (densities.trans matching.densities)
    (matching.free_same taken.symm) (matching.taken_same taken.symm)
    (matching.last_same relasts.symm) ?_ ?_ nofun ?_ nofun ?_
    fun other apart => ⟨fun _ _ => rfl, ?_⟩
  · intro x none
    show mem.next x = t.mem.next x
    rw [next]
    have same : Phase.idle.relinks = (t.phase task).relinks := relinks.symm
    exact matching.next_same same x none
  · intro x free
    refine particle x fun other apart takes => free other ?_
    show (Function.update a.walkers task walker other).slot = some x
    rw [Function.update_of_ne apart]
    exact takes
  · show Function.update a.walkers task walker task = Function.update t.walkers task walker task
    rw [Function.update_self, Function.update_self]
  · show (Function.update t.walkers task walker task).slot = none
    rw [Function.update_self]
    exact slot
  · refine (matching.stage other).keep (fun _ _ => rfl) (fun _ _ => rfl) (fun _ _ => rfl) ?_
      fun _ _ => rfl
    exact fun _ x _ _ used => ⟨congrFun next x, used⟩

/-- The copy is complete, and the task moves on to the next particle. -/
theorem move (matching : Matches space valid a t) (partitioned : sim.Partitioned)
    (inv : Inv space valid holder dest placed a) {fields : Nat}
    (phase : t.phase task = .copy fields)
    (all : 9 ≤ fields) {supply : Supply} {t' : Tasks α}
    (moves : t.move sim task supply = some t') :
    ∃ next, a.copy sim task supply.link = some next ∧ Matches space valid next t' := by
  have stage := matching.stage task
  rw [phase] at stage
  obtain ⟨source, rest, cell2, j, slot, here, copied⟩ := stage
  have same : a.walkers task = t.walkers task := matching.walker_of_slot (by rw [here])
  have read := matching.source_particle partitioned inv here same
  rw [here] at same
  have cells : (a.walkers task).cells = source :: rest := by rw [same]
  have reads : (a.walkers task).cell2 = some cell2 := by rw [same]
  have unlinked : ∀ c, sim.Inside c → ∀ cell, a.mem.next cell = some (a.lastCells (sim.index c)) →
      cell ≠ cell2 :=
    fun c inside cell linked => inv.source_ne_linked partitioned cells reads inside linked
  have old : a.mem.particle (cell2, j % sim.perCell) =
      store.mem.particle (valid.slot (source, j)) := by
    have old := inv.source_particle partitioned cells reads
    rwa [same] at old
  have filled : ∀ x, (∀ other, other ≠ task → (a.walkers other).slot ≠ some x) →
      (a.mem.copyParticle slot (cell2, j % sim.perCell)).particle x = t.mem.particle x := by
    intro x free
    by_cases mine : x = slot
    · rw [mine, Mem.particle_copyParticle_self, old]
      exact Particle.eq_of_fields fun i below => (copied i (by omega) below).symm
    · rw [Mem.particle_copyParticle_of_ne _ mine]
      refine matching.particle x fun other takes => ?_
      by_cases own : other = task
      · rw [own, same] at takes
        exact mine (Option.some.inj takes).symm
      · exact free other own takes
  have next : a.mem.next cell2 = t.mem.next cell2 := by
    refine matching.next cell2 fun other relinks => ?_
    have stage := matching.stage other
    cases phase' : t.phase other with
    | link i cell np block =>
      rw [phase'] at stage relinks
      obtain ⟨c, inside, rfl⟩ := (matching.target other i (by rw [phase']; rfl)).inside
      exact unlinked c inside cell stage.2.1 (Option.some.inj relinks)
    | _ =>
      rw [phase'] at relinks
      cases relinks
  have idle : ∀ walker : Walker, walker.slot = none → Matches space valid
      (Rebuild.setWalker task walker
        { a with mem := a.mem.copyParticle slot (cell2, j % sim.perCell) })
      ({ t with toRebuild := t.toRebuild.setWalker task walker }.goto task .idle) :=
    fun walker none => matching.setWalker none (by rw [phase]; rfl) (by rw [phase]; rfl)
      (by rw [phase]; rfl) rfl rfl rfl filled
  unfold Tasks.move at moves
  unfold Rebuild.copy
  rw [here] at moves
  rw [same]
  dsimp only at moves ⊢
  split at moves
  case isTrue ends =>
    rw [if_pos ends]
    cases moves
    refine ⟨_, rfl, ?_⟩
    rw [Mem.next_copyParticle, next]
    exact (idle _ rfl).returnOverflow _ _ _ unlinked _
  case isFalse inner =>
    rw [if_neg inner]
    cases moves
    exact ⟨_, rfl, idle _ rfl⟩

end Matches

end Passing

section Simulation

variable {α : Type} [Sub α] [Div α] {sim : Sim} {base : Nat} {store : Store α} {space : Space α}
  {valid : Valid sim base store} {holder : Addr → Option (Holder Nat Use)}
  {dest : Coord → Nat → Addr} {placed : Coord → List ParticleId} {a : Rebuild α}
  {t t' : Tasks α} {task numTasks : Nat} {border : Nat → Bool} {supply : Supply}

omit [Sub α] [Div α] in
/-- The head of a list is not returned. -/
theorem Rebuild.returnOverflow_head (s : Rebuild α) {index : Nat} {block : Addr}
    (head : block = sim.cellAt index) (link : Option Addr) :
    s.returnOverflow sim task index block link = s := by
  unfold Rebuild.returnOverflow
  exact if_neg (not_not_intro head)

namespace Matches

/-- A task finds the cell of its particle, or leaves its cell. -/
theorem enter (matching : Matches space valid a t) (partitioned : sim.Partitioned)
    (inv : Inv space valid holder dest placed a) (phase : t.phase task = .idle)
    (own : t.OwnPool sim numTasks task)
    (moves : t.enter sim numTasks space task supply = some t') :
    Matches space valid a t' ∨
      ∃ next, a.leave sim task supply.link = some next ∧ Matches space valid next t' := by
  have same : a.walkers task = t.walkers task := matching.walker_eq (by rw [phase]; rfl)
  have phases : Function.update t.phase task .idle = t.phase := by
    rw [← phase, Function.update_eq_self]
  unfold Tasks.enter at moves
  split at moves
  case h_2 => cases moves
  rename_i source rest cell2 j here
  have walked : Matches space valid (a.setWalker task (sim.walk rest))
      { t with toRebuild := t.toRebuild.setWalker task (sim.walk rest) } := by
    have idle : Matches space valid (Rebuild.setWalker task (sim.walk rest) { a with mem := a.mem })
        ({ t with toRebuild := t.toRebuild.setWalker task (sim.walk rest) }.goto task .idle) := by
      refine matching.setWalker rfl (by rw [phase]; rfl) (by rw [phase]; rfl) (by rw [phase]; rfl)
        rfl rfl rfl fun x free => matching.particle x fun other takes => ?_
      by_cases mine : other = task
      · rw [mine, same, here] at takes
        cases takes
      · exact free other mine takes
    unfold Tasks.goto at idle
    dsimp only at idle
    rw [phases] at idle
    exact idle
  split at moves
  case isTrue less =>
    split at moves
    case h_2 => cases moves
    rename_i cell2
    have read := matching.source_particle partitioned inv here same
    have position : t.mem.p (cell2, j % sim.perCell) = store.mem.p (valid.slot (source, j)) :=
      congrArg Particle.p read
    cases moves
    refine .inl (matching.goto rfl rfl (by rw [phase]; rfl) (by rw [phase]; rfl)
      (by rw [phase]; rfl) ?_ nofun trivial)
    intro i target
    refine ⟨source, rest, cell2, j, here, less, ?_⟩
    rw [← position]
    exact (Option.some.inj target).symm
  case isFalse passed =>
    right
    unfold Rebuild.leave
    rw [same, here]
    dsimp only
    rw [if_neg passed]
    split at moves
    case h_2 =>
      cases moves
      exact ⟨_, rfl, walked⟩
    rename_i cell2
    have cells : (a.walkers task).cells = source :: rest := by rw [same, here]
    have reads : (a.walkers task).cell2 = some cell2 := by rw [same, here]
    cases moves
    refine ⟨_, rfl, ?_⟩
    have returned := walked.returnOverflow task (sim.index source) supply.link
      (fun c inside cell linked => inv.source_ne_linked partitioned cells reads inside linked)
      (t.usePool sim (task / numTasks) task (sim.index source) cell2)
    by_cases head : cell2 = sim.cellAt (sim.index source)
    · rw [Rebuild.returnOverflow_head _ head, Rebuild.returnOverflow_head _ head]
      rw [Rebuild.returnOverflow_head _ head, Rebuild.returnOverflow_head _ head] at returned
      exact returned
    · rw [own phase source rest cell2 j here (Nat.le_of_not_lt passed) head] at returned ⊢
      exact returned

/-- A link that a task follows has been written. -/
theorem follow_eq (matching : Matches space valid a t)
    (inv : Inv space valid holder dest placed a) {i np : Nat} {cell : Addr}
    (phase : t.phase task = .follow i cell np) : t.mem.next cell = some (a.lastCells i) := by
  have stage := matching.stage task
  rw [phase] at stage
  rw [← stage.1]
  refine (matching.next cell fun other relinks => ?_).symm
  have stage' := matching.stage other
  cases phase' : t.phase other with
  | link i' cell' np' block =>
    rw [phase'] at stage' relinks
    obtain rfl : cell' = cell := Option.some.inj relinks
    obtain ⟨c, inside, rfl⟩ := (matching.target task i (by rw [phase]; rfl)).inside
    obtain ⟨c', inside', rfl⟩ := (matching.target other i' (by rw [phase']; rfl)).inside
    have last := Option.some.inj (stage.1.symm.trans stage'.2.1)
    obtain rfl := inv.lastCells_injective inside inside' last
    obtain rfl := matching.exclusive task other _ (by rw [phase]; rfl) (by rw [phase']; rfl)
    rw [phase] at phase'
    cases phase'
  | _ =>
    rw [phase'] at relinks
    cases relinks

/-- A step of a task is a step of its thread, or changes nothing for the threads. -/
theorem step (matching : Matches space valid a t) (partitioned : sim.Partitioned)
    (inv : Inv space valid holder dest placed a) (alone : t.Alone task)
    (own : t.OwnPool sim numTasks task)
    (moves : t.step sim numTasks border space task supply = some t') :
    Matches space valid a t' ∨
      ∃ action next, a.act sim space action = some next ∧ Matches space valid next t' := by
  have stage := matching.stage task
  have target := matching.target task
  unfold Tasks.step at moves
  cases phase : t.phase task with
  | idle =>
    rw [phase] at moves
    rcases matching.enter partitioned inv phase own moves with quiet | ⟨next, left, matching'⟩
    · exact .inl quiet
    · exact .inr ⟨.leave task supply.link, next, left, matching'⟩
  | lock index =>
    rw [phase] at moves stage target
    dsimp only at moves
    split at moves
    · split at moves
      case isFalse => cases moves
      cases moves
      exact .inl (matching.goto rfl rfl (by rw [phase]; rfl) (by rw [phase]; rfl)
        (by rw [phase]; rfl) target nofun trivial)
    · cases moves
      exact .inl (matching.goto rfl rfl (by rw [phase]; rfl) (by rw [phase]; rfl)
        (by rw [phase]; rfl) target nofun trivial)
  | unlock index =>
    rw [phase] at moves stage target
    cases moves
    exact .inl (matching.goto rfl rfl (by rw [phase]; rfl) (by rw [phase]; rfl)
      (by rw [phase]; rfl) target nofun trivial)
  | last index =>
    rw [phase] at moves stage target
    cases moves
    have only := alone index phase
    refine .inl (matching.goto rfl rfl (by rw [phase]; rfl) (by rw [phase]; rfl)
      (by rw [phase]; rfl) target ?_ ?_)
    · intro i here other apart
      obtain rfl := Option.some.inj here
      exact only other apart
    · refine (matching.last index fun other relasts => ?_).symm
      by_cases mine : other = task
      · rw [mine, phase] at relasts
        cases relasts
      · exact only other mine (Phase.section_of_relasts relasts)
  | count index cell =>
    rw [phase] at moves stage target
    cases moves
    exact .inl (matching.goto rfl rfl (by rw [phase]; rfl) (by rw [phase]; rfl)
      (by rw [phase]; rfl) target (matching.alone_same (by rw [phase]; rfl))
      ⟨stage, (matching.count_eq (by rw [phase]; rfl) (by rw [phase]; rfl)).symm⟩)
  | test index cell np =>
    rw [phase] at moves stage target
    dsimp only at moves
    split at moves
    case isTrue full =>
      cases moves
      refine .inl (matching.goto rfl rfl (by rw [phase]; rfl) (by rw [phase]; rfl)
        (by rw [phase]; rfl) target (matching.alone_same (by rw [phase]; rfl))
        ⟨stage.1, stage.2, full.1, ?_⟩)
      rw [stage.2, matching.count_eq (by rw [phase]; rfl) (by rw [phase]; rfl)]
      exact full.2
    case isFalse room =>
      cases moves
      obtain ⟨next, took, matching'⟩ := matching.takeRoom partitioned inv phase room
      exact .inr ⟨.insert task 0 [], next, took, matching'⟩
  | get index cell np =>
    rw [phase] at moves
    obtain ⟨st, granted, same⟩ := Option.bind_eq_some_iff.mp moves
    cases same
    obtain ⟨next, took, matching'⟩ := matching.takeBlock partitioned inv phase granted _
    exact .inr ⟨.insert task supply.block supply.fresh, next, took, matching'⟩
  | link index cell np block =>
    rw [phase] at moves
    cases moves
    exact .inl (matching.link phase)
  | follow index cell np =>
    rw [phase] at moves target
    obtain ⟨block, linked, same⟩ := Option.bind_eq_some_iff.mp moves
    cases same
    refine .inl (matching.goto rfl rfl (by rw [phase]; rfl) (by rw [phase]; rfl)
      (by rw [phase]; rfl) target (matching.alone_same (by rw [phase]; rfl)) ?_)
    exact Option.some.inj (linked.symm.trans (matching.follow_eq inv phase))
  | setLast index cell np =>
    rw [phase] at moves
    cases moves
    exact .inl (matching.setLast phase)
  | load index cell np =>
    rw [phase] at moves stage target
    cases moves
    exact .inl (matching.goto rfl rfl (by rw [phase]; rfl) (by rw [phase]; rfl)
      (by rw [phase]; rfl) target (matching.alone_same (by rw [phase]; rfl)) ⟨stage, rfl⟩)
  | store index cell np value =>
    rw [phase] at moves
    cases moves
    exact .inl (matching.storeCount phase)
  | copy fields =>
    rw [phase] at moves stage
    dsimp only at moves
    split at moves
    case isTrue known =>
      obtain ⟨source, rest, cell2, j, slot, here, -⟩ := stage
      rw [here] at moves
      cases moves
      exact .inl (matching.copyField partitioned inv phase known here)
    case isFalse all =>
      obtain ⟨next, copied, matching'⟩ :=
        matching.move partitioned inv phase (Nat.le_of_not_lt all) moves
      exact .inr ⟨.copy task supply.link, next, copied, matching'⟩

end Matches

end Simulation

end P3arsec.Fluidanimate
