import P3arsec.Fluidanimate.TbbMatches

/-!
# The grid that the tasks rebuild

Every run of the tasks whose steps are careful is a run of the threads of `RebuildGridMT` on the
slices, and when the tasks have finished there is nothing left to write, so that the rebuilt grid is
valid. Without the care a particle is lost, since the mutex of a cell does not cover the accesses to
its variables.
-/

namespace P3arsec.Fluidanimate

open P3arsec.Lib

section Regrid

variable {α : Type} {sim : Sim} {base : Nat} {store : Store α}

/-- A valid particle grid does not depend on how the domain is cut. -/
def Valid.regrid (valid : Valid sim base store) (grids : List Grid) :
    Valid { sim with grids } base store where
  block := valid.block
  head := valid.head
  linked := valid.linked
  apart := valid.apart
  holder := valid.holder
  held := valid.held
  last := valid.last
  chain := valid.chain
  spare := valid.spare

end Regrid

section Run

variable {α : Type} [Sub α] [Div α] {sim : Sim} {base : Nat} {store : Store α} {space : Space α}
  {t t' : Tasks α} {task numTasks : Nat} {border : Nat → Bool} {supply : Supply}

/-- At the begin no task has anything still to write. -/
theorem Matches.start (space : Space α) (valid : Valid sim base store) :
    Matches space valid (.start sim base store) (.start sim base store) :=
  ⟨rfl, rfl, rfl, rfl, fun _ _ => rfl, nofun, fun _ _ => rfl, fun _ _ => rfl, fun _ _ => rfl, nofun,
    fun _ => rfl, nofun, fun _ => rfl⟩

namespace Tasks

/-- What a step changes beside the variables of the grid: the phase of its task, the mutex of a
cell, and the pool of the task. -/
structure Frame (sim : Sim) (numTasks task : Nat) (t t' : Tasks α) : Prop where
  /-- The other tasks stay where they are. -/
  phases : t'.phase = Function.update t.phase task (t'.phase task)
  /-- Their variables stay the same. -/
  walkers : ∀ other, other ≠ task → t'.walkers other = t.walkers other
  /-- A mutex is taken or released. -/
  owners : (t'.owner = t.owner ∧ ∀ index, t.phase task ≠ .unlock index) ∨
    (∃ index, t.phase task = .lock index ∧ t.owner index = none ∧
      t'.owner = Function.update t.owner index (some task) ∧ t'.phase task = .unlock index) ∨
    ∃ index, t.phase task = .unlock index ∧ t'.owner = Function.update t.owner index none
  /-- The pool of the task is used. -/
  used : t.OwnPool sim numTasks task → ∀ pool user, (pool, user) ∈ t'.used →
    (pool, user) ∈ t.used ∨ pool = user

omit [Sub α] [Div α] in
/-- A step without a mutex and a pool. -/
theorem Frame.quiet {phase : Phase} (phases : t'.phase = Function.update t.phase task phase)
    (walkers : ∀ other, other ≠ task → t'.walkers other = t.walkers other)
    (owner : t'.owner = t.owner) (used : t'.used = t.used)
    (locked : ∀ index, t.phase task ≠ .unlock index) : Frame sim numTasks task t t' where
  phases := by rw [phases, Function.update_self]
  walkers := walkers
  owners := .inl ⟨owner, locked⟩
  used _ pool user member := .inl (used ▸ member)

omit [Sub α] [Div α] in
/-- A step in which a block is returned. -/
theorem Frame.returns {phase : Phase} {pool index : Nat} {block : Addr}
    (phases : t'.phase = Function.update t.phase task phase)
    (walkers : ∀ other, other ≠ task → t'.walkers other = t.walkers other)
    (owner : t'.owner = t.owner) (used : t'.used = t.usePool sim pool task index block)
    (own : t.OwnPool sim numTasks task → block ≠ sim.cellAt index → pool = task)
    (locked : ∀ index, t.phase task ≠ .unlock index) : Frame sim numTasks task t t' where
  phases := by rw [phases, Function.update_self]
  walkers := walkers
  owners := .inl ⟨owner, locked⟩
  used careful p user member := by
    rw [used] at member
    unfold usePool at member
    split at member
    case isTrue overflow =>
      rcases List.mem_cons.mp member with same | old
      · obtain ⟨rfl, rfl⟩ := Prod.mk.inj same
        exact .inr (own careful overflow)
      · exact .inl old
    case isFalse => exact .inl member

omit [Sub α] [Div α] in
/-- The phase of one task is set. -/
theorem phase_goto (t : Tasks α) (phase : Phase) :
    (t.goto task phase).phase = Function.update t.phase task ((t.goto task phase).phase task) := by
  unfold goto
  dsimp only
  rw [Function.update_self]

/-- Every step has this frame. -/
theorem step_frame (moves : t.step sim numTasks border space task supply = some t') :
    Frame sim numTasks task t t' := by
  have stays : t.phase = Function.update t.phase task (t.phase task) :=
    (Function.update_eq_self ..).symm
  unfold step at moves
  cases phase : t.phase task with
  | idle =>
    have unlocked : ∀ index, t.phase task ≠ .unlock index := by rw [phase]; nofun
    rw [phase] at moves
    dsimp only at moves
    unfold enter at moves
    split at moves
    case h_2 => cases moves
    rename_i source rest cell2 j here
    split at moves
    case isTrue =>
      split at moves
      case h_2 => cases moves
      cases moves
      exact .quiet rfl (fun _ _ => rfl) rfl rfl unlocked
    case isFalse passed =>
      split at moves
      case h_2 =>
        cases moves
        exact .quiet stays (fun _ apart => Function.update_of_ne apart _ _) rfl rfl unlocked
      cases moves
      refine .returns stays ?_ rfl rfl
        (fun own => own phase source rest _ j here (Nat.le_of_not_lt passed)) unlocked
      intro other apart
      rw [Rebuild.walkers_returnOverflow]
      exact Function.update_of_ne apart _ _
  | lock index =>
    rw [phase] at moves
    dsimp only at moves
    split at moves
    · split at moves
      case isFalse => cases moves
      rename_i free
      cases moves
      have now : Function.update t.phase task (.unlock index) task = .unlock index :=
        Function.update_self ..
      exact ⟨phase_goto _ _, fun _ _ => rfl, .inr (.inl ⟨index, phase, free, rfl, now⟩),
        fun _ _ _ => .inl⟩
    · cases moves
      exact .quiet rfl (fun _ _ => rfl) rfl rfl (by rw [phase]; nofun)
  | unlock index =>
    rw [phase] at moves
    cases moves
    exact ⟨phase_goto _ _, fun _ _ => rfl, .inr (.inr ⟨index, phase, rfl⟩), fun _ _ _ => .inl⟩
  | test index cell np =>
    rw [phase] at moves
    dsimp only at moves
    split at moves
    · cases moves
      exact .quiet rfl (fun _ _ => rfl) rfl rfl (by rw [phase]; nofun)
    · cases moves
      exact .quiet rfl (fun _ _ => rfl) rfl rfl (by rw [phase]; nofun)
  | get index cell np =>
    rw [phase] at moves
    obtain ⟨st, -, same⟩ := Option.bind_eq_some_iff.mp moves
    cases same
    refine ⟨phase_goto _ _, fun _ _ => rfl, .inl ⟨rfl, by rw [phase]; nofun⟩,
      fun _ pool user member => ?_⟩
    rcases List.mem_cons.mp member with same | old
    · obtain ⟨rfl, rfl⟩ := Prod.mk.inj same
      exact .inr rfl
    · exact .inl old
  | follow index cell np =>
    rw [phase] at moves
    obtain ⟨block, -, same⟩ := Option.bind_eq_some_iff.mp moves
    cases same
    exact .quiet rfl (fun _ _ => rfl) rfl rfl (by rw [phase]; nofun)
  | copy fields =>
    have unlocked : ∀ index, t.phase task ≠ .unlock index := by rw [phase]; nofun
    rw [phase] at moves
    dsimp only at moves
    split at moves
    · split at moves
      case h_2 => cases moves
      cases moves
      exact .quiet rfl (fun _ _ => rfl) rfl rfl unlocked
    · unfold move at moves
      split at moves
      case h_2 => cases moves
      split at moves
      · cases moves
        refine .returns rfl ?_ rfl rfl (fun _ _ => rfl) unlocked
        intro other apart
        show (Rebuild.returnOverflow sim task _ _ _ _).walkers other = _
        rw [Rebuild.walkers_returnOverflow]
        exact Function.update_of_ne apart _ _
      · cases moves
        exact .quiet rfl (fun _ apart => Function.update_of_ne apart _ _) rfl rfl unlocked
  | store index cell np value =>
    rw [phase] at moves
    cases moves
    exact .quiet rfl (fun _ apart => Function.update_of_ne apart _ _) rfl rfl (by rw [phase]; nofun)
  | _ =>
    rw [phase] at moves
    cases moves
    exact .quiet rfl (fun _ _ => rfl) rfl rfl (by rw [phase]; nofun)

omit [Sub α] [Div α] in
/-- A mutex that is held is about to be released. -/
theorem Frame.released (frame : Frame sim numTasks task t t')
    (held : ∀ index other, t.owner index = some other → t.phase other = .unlock index)
    (index other : Nat) (owner : t'.owner index = some other) : t'.phase other = .unlock index := by
  have apart : ∀ phase, t.phase other = .unlock index → (∀ i, t.phase task ≠ .unlock i) →
      Function.update t.phase task phase other = .unlock index := by
    intro phase here locked
    rw [Function.update_of_ne]
    · exact here
    · rintro rfl
      exact locked index here
  rcases frame.owners with ⟨same, locked⟩ | ⟨i, phase, -, taken, now⟩ | ⟨i, phase, freed⟩
  · rw [frame.phases]
    rw [same] at owner
    exact apart _ (held index other owner) locked
  · rw [taken] at owner
    by_cases here : index = i
    · subst here
      rw [Function.update_self] at owner
      obtain rfl := Option.some.inj owner
      exact now
    · rw [Function.update_of_ne here] at owner
      rw [frame.phases]
      exact apart _ (held index other owner) (by rw [phase]; nofun)
  · rw [freed] at owner
    by_cases here : index = i
    · rw [here, Function.update_self] at owner
      cases owner
    · rw [Function.update_of_ne here] at owner
      have before := held index other owner
      rw [frame.phases, Function.update_of_ne]
      · exact before
      · rintro rfl
        rw [phase] at before
        exact here (Phase.unlock.inj before).symm

/-- What a step must meet: no other task is between its accesses to the cell, and a block that is
returned goes to the pool of the task. -/
def Careful (sim : Sim) (numTasks task : Nat) (t : Tasks α) : Prop :=
  t.Alone task ∧ t.OwnPool sim numTasks task

/-- Every run of the tasks is one of the threads. -/
theorem Reached.simulated (partitioned : sim.Partitioned) (valid : Valid sim base store)
    (reached : Reached sim numTasks border space (fun task t => t.Careful sim numTasks task) base
      store t) :
    (∀ pool user, (pool, user) ∈ t.used → pool = user) ∧
      (∀ index other, t.owner index = some other → t.phase other = .unlock index) ∧
      ∃ a, Rebuild.Reached sim space base store a ∧ Matches space valid a t := by
  induction reached with
  | start begins =>
    rw [begins]
    exact ⟨nofun, nofun, _, .start rfl, .start space valid⟩
  | step _ moves ih =>
    obtain ⟨pools, held, a, reached, matching⟩ := ih
    obtain ⟨task, supply, ⟨alone, own⟩, moves⟩ := moves
    have frame := step_frame moves
    refine ⟨?_, frame.released held, ?_⟩
    · intro pool user used
      rcases frame.used own pool user used with before | now
      · exact pools pool user before
      · exact now
    · obtain ⟨_, _, _, inv⟩ := reached.inv valid partitioned
      rcases matching.step partitioned inv alone own moves with quiet | ⟨action, next, acts, now⟩
      · exact ⟨a, reached, quiet⟩
      · exact ⟨next, reached.step ⟨action, acts⟩, now⟩

end Tasks

omit [Sub α] [Div α] in
/-- Two memories with the same particles, accelerations, densities and links. -/
theorem Mem.eq_of_particle {mem other : Mem α} (particle : mem.particle = other.particle)
    (accelerations : mem.a = other.a) (densities : mem.density = other.density)
    (next : mem.next = other.next) : mem = other := by
  have p : mem.p = other.p := funext fun x => congrArg Particle.p (congrFun particle x)
  have hv : mem.hv = other.hv := funext fun x => congrArg Particle.hv (congrFun particle x)
  have v : mem.v = other.v := funext fun x => congrArg Particle.v (congrFun particle x)
  obtain ⟨_, _, _, _, _, _⟩ := mem
  obtain ⟨_, _, _, _, _, _⟩ := other
  cases p
  cases hv
  cases v
  cases accelerations
  cases densities
  cases next
  rfl

/-- When the tasks have finished nothing is left to write. -/
theorem Matches.finished {valid : Valid sim base store} {a : Rebuild α}
    (matching : Matches space valid a t) (finished : t.Finished) : a = t.toRebuild := by
  have idle : ∀ task, t.phase task = .idle := fun task => (finished task).2
  have walkers : a.walkers = t.walkers := funext fun task =>
    matching.walker_eq (by rw [idle]; rfl)
  have free : ∀ x task, (a.walkers task).slot ≠ some x := by
    intro x task takes
    have stage := matching.stage task
    rw [idle] at stage
    rw [walkers, show (t.walkers task).slot = none from stage] at takes
    cases takes
  have counts : a.cnumPars = t.cnumPars := funext fun i =>
    matching.free i fun task np taken => by
      rw [idle] at taken
      cases taken
  have last : a.lastCells = t.lastCells := funext fun i =>
    matching.last i fun task relasts => by
      rw [idle] at relasts
      cases relasts
  have next : a.mem.next = t.mem.next := funext fun x =>
    matching.next x fun task relinks => by
      rw [idle] at relinks
      cases relinks
  have particle : a.mem.particle = t.mem.particle :=
    funext fun x => matching.particle x (free x)
  have mem : a.mem = t.mem :=
    Mem.eq_of_particle particle matching.accelerations matching.densities next
  obtain ⟨⟨_, _, _, _⟩, _, _⟩ := a
  obtain ⟨⟨⟨_, _, _, _⟩, _, _⟩, _, _, _⟩ := t
  cases mem
  cases counts
  cases last
  cases walkers
  cases matching.pools
  cases matching.returned
  rfl

end Run

section Progress

variable {α : Type} [Sub α] [Div α] {sim : Sim} {base : Nat} {store : Store α} {space : Space α}
  {valid : Valid sim base store} {holder : Addr → Option (Holder Nat Use)}
  {dest : Coord → Nat → Addr} {placed : Coord → List ParticleId} {a : Rebuild α}
  {t t' : Tasks α} {task numTasks : Nat} {border : Nat → Bool} {supply : Supply}

/-- A task that has not finished has a step, or waits for a mutex. -/
theorem Matches.progress (matching : Matches space valid a t)
    (inv : Inv space valid holder dest placed a)
    (unfinished : (t.walkers task).cells ≠ [] ∨ t.phase task ≠ .idle) :
    (∃ supply, (t.step sim numTasks border space task supply).isSome) ∨
      ∃ index, t.phase task = .lock index ∧ t.owner index ≠ none := by
  have stage := matching.stage task
  unfold Tasks.step
  cases phase : t.phase task with
  | idle =>
    left
    rw [phase] at stage
    have same : a.walkers task = t.walkers task := matching.walker_eq (by rw [phase]; rfl)
    have some : (t.walkers task).cells ≠ [] := unfinished.resolve_right (not_not_intro phase)
    obtain ⟨source, rest, cells⟩ := List.exists_cons_of_ne_nil some
    have pointer := (inv.placing.pointer (by rw [same]; exact cells)).2
    rw [same] at pointer
    refine ⟨⟨0, [], none⟩, ?_⟩
    unfold Tasks.enter
    have here : t.walkers task =
        ⟨source :: rest, (t.walkers task).cell2, (t.walkers task).j, none⟩ := by
      rw [← cells, ← show (t.walkers task).slot = none from stage]
    rw [here]
    dsimp only
    split
    case isTrue less =>
      rw [pointer, if_pos (Sim.div_le_lastBlock less)]
      rfl
    case isFalse =>
      split
      · rfl
      · rfl
  | lock index =>
    dsimp only
    split
    · by_cases free : t.owner index = none
      · left
        rw [if_pos free]
        exact ⟨⟨0, [], none⟩, rfl⟩
      · exact .inr ⟨index, rfl, free⟩
    · exact .inl ⟨⟨0, [], none⟩, rfl⟩
  | test index cell np =>
    left
    dsimp only
    split
    · exact ⟨⟨0, [], none⟩, rfl⟩
    · exact ⟨⟨0, [], none⟩, rfl⟩
  | get index cell np =>
    left
    have separate := inv.filling.held.separate
    rw [matching.pools] at separate
    obtain ⟨block, fresh, granted⟩ := Store.getcell_isSome separate task
    obtain ⟨st, granted⟩ := Option.isSome_iff_exists.mp granted
    refine ⟨⟨block, fresh, none⟩, ?_⟩
    dsimp only
    rw [granted]
    rfl
  | follow index cell np =>
    left
    refine ⟨⟨0, [], none⟩, ?_⟩
    dsimp only
    rw [matching.follow_eq inv phase]
    rfl
  | copy fields =>
    left
    rw [phase] at stage
    obtain ⟨source, rest, cell2, j, slot, here, -⟩ := stage
    refine ⟨⟨0, [], none⟩, ?_⟩
    dsimp only
    split
    · rw [here]
      rfl
    · unfold Tasks.move
      rw [here]
      dsimp only
      split
      · rfl
      · rfl
  | _ => exact .inl ⟨⟨0, [], none⟩, rfl⟩

end Progress

/-- The tasks of `RebuildGridMTWorker` on a valid grid, in every run whose steps are careful. A task
that has not finished has a step, or waits for a mutex that another task is about to release. Each
pool is used by its own task, and two tasks have never taken the same slot. When all tasks have
finished the state is one that threads reach which take each slot at once: the array `cells` holds a
valid grid with the particles of the old one, in which every particle lies in the cell of its
position, and every overflow block of the old grid has been returned once. -/
theorem tasks_rebuild {α : Type} [Sub α] [Div α] {sim : Sim} {base numTasks : Nat} {store : Store α}
    (space : Space α) (border : Nat → Bool) (positive : 0 < numTasks)
    (partitioned : sim.Partitioned) (valid : Valid sim base store) {t : Tasks α}
    (reached : Tasks.Reached (sim.sliced numTasks) numTasks border space
      (fun task t => t.Careful (sim.sliced numTasks) numTasks task) base store t) :
    (∀ task, (t.walkers task).cells ≠ [] ∨ t.phase task ≠ .idle →
      (∃ supply, (t.step (sim.sliced numTasks) numTasks border space task supply).isSome) ∨
        ∃ index other, t.phase task = .lock index ∧ t.owner index = some other ∧
          t.phase other = .unlock index) ∧
    (∀ pool task, (pool, task) ∈ t.used → pool = task) ∧
    (∀ task other slot, (t.walkers task).slot = some slot → (t.walkers other).slot = some slot →
      task = other) ∧
    (t.Finished → Rebuild.Reached (sim.sliced numTasks) space base store t.toRebuild ∧
      ∃ grid : Valid (sim.rebuilt base t.cnumPars) sim.cellsBase t.toStore,
        grid.particles.Perm valid.particles ∧
        (∀ id, (sim.rebuilt base t.cnumPars).Holds id →
          sim.cellOf space (t.mem.p (grid.slot id)) = id.1) ∧
        t.returned.Perm valid.overflow) := by
  have sliced := partitioned.sliced positive
  obtain ⟨pools, held, a, threads, matching⟩ := reached.simulated sliced (valid.regrid _)
  obtain ⟨_, _, _, inv⟩ := threads.inv (valid.regrid _) sliced
  refine ⟨fun task unfinished => ?_, pools, fun task other slot takes takes' => ?_,
    fun finished => ?_⟩
  · rcases matching.progress inv unfinished with moves | ⟨index, waits, locked⟩
    · exact .inl moves
    · obtain ⟨other, owner⟩ := Option.ne_none_iff_exists'.mp locked
      exact .inr ⟨index, other, waits, owner, held index other owner⟩
  · rw [← matching.walker_of_slot takes] at takes
    rw [← matching.walker_of_slot takes'] at takes'
    obtain ⟨source, rest, cells⟩ := matching.started takes
    obtain ⟨source', rest', cells'⟩ := matching.started takes'
    exact inv.slot_injective sliced cells takes cells' takes'
  · obtain rfl := matching.finished finished
    refine ⟨threads, ?_⟩
    obtain ⟨grid, particles, cells, returned⟩ :=
      threads.finished_grid sliced (valid.regrid _) fun task => (finished task).1
    exact ⟨grid.regrid sim.grids, particles, cells, returned⟩

section Sample

variable {α : Type} [Sub α] [Div α] {sim : Sim} {numTasks base : Nat} {border : Nat → Bool}
  {space : Space α} {store : Store α}

namespace Tasks

/-- The state after steps of the tasks, where no pool is asked for a block. -/
def runs (sim : Sim) (numTasks : Nat) (border : Nat → Bool) (space : Space α) (order : List Nat)
    (t : Tasks α) : Option (Tasks α) :=
  order.foldlM (fun t task => t.step sim numTasks border space task ⟨0, [], none⟩) t

/-- The first step and the others. -/
theorem runs_cons {task : Nat} {order : List Nat} {t t' : Tasks α}
    (runs : t.runs sim numTasks border space (task :: order) = some t') :
    ∃ middle, t.step sim numTasks border space task ⟨0, [], none⟩ = some middle ∧
      middle.runs sim numTasks border space order = some t' := by
  unfold Tasks.runs at runs
  rw [List.foldlM_cons] at runs
  exact Option.bind_eq_some_iff.mp runs

/-- Tasks that are not in the order stay as they are. -/
theorem runs_frame {order : List Nat} {t t' : Tasks α}
    (runs : t.runs sim numTasks border space order = some t') {task : Nat}
    (other : task ∉ order) : t'.walkers task = t.walkers task ∧ t'.phase task = t.phase task := by
  induction order generalizing t with
  | nil =>
    cases runs
    exact ⟨rfl, rfl⟩
  | cons first order ih =>
    obtain ⟨middle, moves, runs⟩ := runs_cons runs
    obtain ⟨apart, later⟩ : task ≠ first ∧ task ∉ order := by simpa using other
    have frame := step_frame moves
    obtain ⟨walkers, phases⟩ := ih runs later
    refine ⟨walkers.trans (frame.walkers task apart), phases.trans ?_⟩
    rw [frame.phases, Function.update_of_ne apart]

/-- Steps that meet a condition, with what holds before each of them, lead to a state that is
reached. -/
theorem Reached.runs {condition : Nat → Tasks α → Prop} (holds : Tasks α → Prop)
    {order : List Nat} (keeps : ∀ task ∈ order, ∀ t t', holds t →
      t.step sim numTasks border space task ⟨0, [], none⟩ = some t' → condition task t ∧ holds t')
    {t t' : Tasks α} (reached : Reached sim numTasks border space condition base store t)
    (begins : holds t) (runs : t.runs sim numTasks border space order = some t') :
    Reached sim numTasks border space condition base store t' := by
  induction order generalizing t with
  | nil =>
    cases runs
    exact reached
  | cons first order ih =>
    obtain ⟨middle, moves, runs⟩ := runs_cons runs
    obtain ⟨meets, now⟩ := keeps first List.mem_cons_self t middle begins moves
    exact ih (fun task member => keeps task (List.mem_cons_of_mem _ member))
      (reached.step ⟨first, _, meets, moves⟩) now runs

/-- The steps of one task are careful while the other tasks are before a particle, and while there
is one task for each grid. -/
theorem Reached.runs_single {task : Nat} {count : Nat} {t t' : Tasks α}
    (reached : Reached sim 1 border space (fun task t => t.Careful sim 1 task) base store t)
    (idle : ∀ other, other ≠ task → t.phase other = .idle)
    (runs : t.runs sim 1 border space (List.replicate count task) = some t') :
    Reached sim 1 border space (fun task t => t.Careful sim 1 task) base store t' := by
  refine Reached.runs (fun t => ∀ other, other ≠ task → t.phase other = .idle)
    (fun first member t middle idle moves => ?_) reached idle runs
  obtain rfl := List.eq_of_mem_replicate member
  refine ⟨⟨fun index _ other apart inside => ?_, fun _ _ _ _ _ _ _ _ => Nat.div_one first⟩, ?_⟩
  · rw [idle other apart] at inside
    cases inside
  · intro other apart
    rw [(step_frame moves).phases, Function.update_of_ne apart]
    exact idle other apart

end Tasks

end Sample

/-- Two cells for two grids, with a particle in each. -/
def duel : Sim where
  perCell := 2
  perCell_pos := Nat.two_pos
  nx := 2
  ny := 1
  nz := 1
  nx_pos := Nat.two_pos
  ny_pos := Nat.one_pos
  nz_pos := Nat.one_pos
  cnumPars _ := 1
  grids := [⟨0, 0, 0, 1, 1, 1⟩, ⟨1, 0, 0, 2, 1, 1⟩]
  cellsBase := 0
  sizeofCell := 2
  offsetofP := 0
  sizeofVec3 := 1
  sizeofVec3_pos := Nat.one_pos
  fits := by omega

/-- Both particles are in the second cell. -/
def duelStore : Store ℤ where
  mem :=
    { p := fun _ => ⟨1, 0, 0⟩
      hv := fun _ => ⟨0, 0, 0⟩
      v := fun _ => ⟨0, 0, 0⟩
      a := fun _ => ⟨0, 0, 0⟩
      density := fun _ => 0
      next := fun _ => none }
  cnumPars _ := 0
  lastCells _ := 0
  pools := ⟨fun _ => [], [0, 2, 10, 12]⟩

/-- The two cells of the sample. -/
theorem mem_duel {cell : Coord} (inside : duel.Inside cell) :
    cell = ⟨0, 0, 0⟩ ∨ cell = ⟨1, 0, 0⟩ := by
  have member : cell ∈ [(⟨0, 0, 0⟩ : Coord), ⟨1, 0, 0⟩] := Sim.mem_domain.mpr inside
  simpa using member

/-- The grid is valid. -/
def duelValid : Valid duel 10 duelStore where
  block cell t := duel.cellAt (duel.index cell) + 20 * t
  head _ := rfl
  linked := by
    intro cell inside t more
    change (t + 1) * 2 < 1 at more
    omega
  apart := by
    intro cell other inside inside' t t' used used' different
    change t * 2 < 1 at used
    change t' * 2 < 1 at used'
    obtain rfl : t = 0 := by omega
    obtain rfl : t' = 0 := by omega
    rcases mem_duel inside with rfl | rfl <;> rcases mem_duel inside' with rfl | rfl <;>
      revert different <;> decide
  holder a :=
    if a = 0 then some (.use (.old ⟨0, 0, 0⟩ 0)) else
    if a = 2 then some (.use (.old ⟨1, 0, 0⟩ 0)) else
    if a = 10 then some (.use (.new ⟨0, 0, 0⟩ 0)) else
    if a = 12 then some (.use (.new ⟨1, 0, 0⟩ 0)) else none
  held := by
    refine ⟨?_, by decide, ?_, fun _ => List.nodup_nil⟩
    · intro a held known
      split_ifs at known <;> simp_all [duelStore]
    · intro i a
      constructor
      · intro free
        cases free
      · intro pooled
        split_ifs at pooled <;> cases pooled
  last _ _ := rfl
  chain := by
    intro cell inside t within
    change t ≤ (1 - 1) / 2 at within
    obtain rfl : t = 0 := by omega
    rcases mem_duel inside with rfl | rfl <;> decide
  spare := by
    intro cell inside
    rcases mem_duel inside with rfl | rfl <;> decide

/-- The begin of `RebuildGridMTWorker` with one task for each grid. -/
def duelStart : Tasks ℤ := .start (duel.sliced 1) 10 duelStore

/-- Whether the two tasks have passed their cells, and the counts of the cells. -/
def duelEnd (t : Tasks ℤ) : Bool × Nat × Nat :=
  ([0, 1].all fun task => (t.walkers task).cells = [] && t.phase task = .idle,
    t.cnumPars 0, t.cnumPars 1)

/-- The first task ends before the second one begins. -/
theorem duel_first : (duelStart.runs (duel.sliced 1) 1 (duel.initBorder fun _ => false) units
    (List.replicate 19 0)).map (fun t => t.phase 0) = some .idle := by
  decide +kernel

/-- One task after the other: both particles are in place. -/
theorem duel_second : (duelStart.runs (duel.sliced 1) 1 (duel.initBorder fun _ => false) units
    (List.replicate 19 0 ++ List.replicate 19 1)).map duelEnd = some (true, 0, 2) := by
  decide +kernel

/-- Each task passes the lock, and then they take turns. -/
def duelTurns : List Nat := [0, 0, 0, 1, 1, 1] ++ (List.replicate 16 [0, 1]).flatten

/-- Two tasks in turn: one particle is lost. -/
theorem duel_turns : (duelStart.runs (duel.sliced 1) 1 (duel.initBorder fun _ => false) units
    duelTurns).map duelEnd = some (true, 0, 1) := by
  decide +kernel

/-- The other tasks have nothing to do. -/
theorem duel_others {order : List Nat} {t : Tasks ℤ}
    (run : duelStart.runs (duel.sliced 1) 1 (duel.initBorder fun _ => false) units order = some t)
    (known : ∀ task ∈ order, task ∈ [0, 1]) (ends : (duelEnd t).1 = true) :
    t.Finished := by
  intro task
  by_cases here : task ∈ [0, 1]
  · have both := List.all_eq_true.mp ends task here
    simpa using both
  · obtain ⟨walkers, phases⟩ := Tasks.runs_frame run fun member => here (known task member)
    rw [walkers, phases]
    refine ⟨?_, rfl⟩
    show (duel.sliced 1).cellsOf task = []
    unfold Sim.cellsOf
    rw [List.getElem?_eq_none]
    · rfl
    · have two : (duel.sliced 1).grids.length = 2 := rfl
      rw [two]
      by_contra below
      exact here (by simp; omega)

/-- Both particles are stored when one task ends before the other one begins. -/
theorem tasks_rebuild_sample : ∃ t, Tasks.Reached (duel.sliced 1) 1 (duel.initBorder fun _ => false)
    units (fun task t => t.Careful (duel.sliced 1) 1 task) 10 duelStore t ∧ t.Finished ∧
    t.cnumPars 1 = 2 ∧
    ∃ grid : Valid (duel.rebuilt 10 t.cnumPars) duel.cellsBase t.toStore,
      grid.particles.Perm duelValid.particles := by
  have partitioned : duel.Partitioned := by decide
  obtain ⟨t, run, ends⟩ := Option.map_eq_some_iff.mp duel_second
  have known : ∀ task ∈ List.replicate 19 0 ++ List.replicate 19 1, task ∈ [0, 1] := by decide
  have finished := duel_others run known (congrArg Prod.fst ends)
  have reached : Tasks.Reached (duel.sliced 1) 1 (duel.initBorder fun _ => false) units
      (fun task t => t.Careful (duel.sliced 1) 1 task) 10 duelStore t := by
    unfold Tasks.runs at run
    rw [List.foldlM_append] at run
    obtain ⟨middle, first, second⟩ := Option.bind_eq_some_iff.mp run
    refine Tasks.Reached.runs_single ?_ ?_ second
    · exact Tasks.Reached.runs_single (.start rfl) (fun _ _ => rfl) first
    · intro other apart
      have phase : middle.phase 0 = .idle := by
        have same := duel_first
        unfold Tasks.runs at same
        rw [first] at same
        exact Option.some.inj same
      by_cases zero : other = 0
      · rw [zero, phase]
      · refine (Tasks.runs_frame first ?_).2
        simp [zero]
  obtain ⟨-, grid, particles, -⟩ :=
    (tasks_rebuild units _ Nat.one_pos partitioned duelValid reached).2.2.2 finished
  exact ⟨t, reached, finished, congrArg (fun e => e.2.2) ends, grid, particles⟩

/-- One of the particles is lost when both tasks read the variables of the cell before either of
them has stored its count, though both of them have taken its mutex. -/
theorem tasks_rebuild_fails : ∃ t, Tasks.Reached (duel.sliced 1) 1
    (duel.initBorder fun _ => false) units (fun _ _ => True) 10 duelStore t ∧ t.Finished ∧
    ¬∃ grid : Valid (duel.rebuilt 10 t.cnumPars) duel.cellsBase t.toStore,
      grid.particles.Perm duelValid.particles := by
  obtain ⟨t, run, ends⟩ := Option.map_eq_some_iff.mp duel_turns
  have known : ∀ task ∈ duelTurns, task ∈ [0, 1] := by decide
  refine ⟨t, Tasks.Reached.runs (fun _ => True) (fun _ _ _ _ _ _ => ⟨trivial, trivial⟩) (.start rfl)
    trivial run,
    duel_others run known (congrArg Prod.fst ends), ?_⟩
  rintro ⟨grid, same⟩
  have counts := same.length_eq
  have first : t.cnumPars 0 = 0 := congrArg (fun e => e.2.1) ends
  have second : t.cnumPars 1 = 1 := congrArg (fun e => e.2.2) ends
  have lost : grid.particles.length = t.cnumPars 0 + t.cnumPars 1 := by
    show (((([⟨0, 0, 0⟩, ⟨1, 0, 0⟩] : List Coord).flatMap fun cell =>
      (List.range (t.cnumPars (duel.index cell))).map _)).length : Nat) = _
    simp
    rfl
  rw [lost, first, second] at counts
  revert counts
  decide

end P3arsec.Fluidanimate
