import P3arsec.Lib.Fold

/-!
# Writes to shared tables

A task clears entries of a table and then adds to entries. Tasks that write to different entries can
run in any interleaving: each entry is left as the one task that writes to it leaves it.
-/

namespace P3arsec.Lib

variable {ι κ μ ω : Type*} [DecidableEq ι] [DecidableEq κ]

/-- The steps of programs, each with the name of its program, in an order that keeps the order of
each program. -/
def Interleaves (run : List (ι × ω)) (program : ι → List ω) : Prop :=
  ∀ task, (run.filter fun step => step.1 = task).map Prod.snd = program task

/-- A step of an interleaving is one of its program. -/
theorem Interleaves.mem {run : List (ι × ω)} {program : ι → List ω}
    (interleaves : Interleaves run program) {step : ι × ω} (member : step ∈ run) :
    step.2 ∈ program step.1 := by
  rw [← interleaves step.1]
  exact List.mem_map_of_mem (List.mem_filter.mpr ⟨member, decide_eq_true rfl⟩)

/-- Programs that run one after the other. -/
theorem interleaves_of_order (program : ι → List ω) {order : List ι} (nodup : order.Nodup)
    (all : ∀ task, task ∈ order) :
    Interleaves (order.flatMap fun task => (program task).map (task, ·)) program := by
  intro task
  have found : ∀ order : List ι, order.Nodup →
      ((order.flatMap fun task => (program task).map (task, ·)).filter
        fun step => step.1 = task).map Prod.snd = if task ∈ order then program task else [] := by
    intro order
    induction order with
    | nil => exact fun _ => rfl
    | cons first order ih =>
      intro nodup
      obtain ⟨fresh, nodup⟩ := List.nodup_cons.mp nodup
      rw [List.flatMap_cons, List.filter_append, List.map_append, ih nodup]
      by_cases here : first = task
      · subst here
        simp [List.filter_map, Function.comp_def, fresh]
      · simp [List.filter_map, Function.comp_def, here, Ne.symm here]
  rw [found order nodup, if_pos (all task)]

/-- A write to a table. -/
inductive Write (κ μ : Type*) where
  | clear (key : κ)
  | add (key : κ) (amount : μ)

namespace Write

/-- The entry that is written. -/
def key : Write κ μ → κ
  | clear key => key
  | add key _ => key

variable [AddCommMonoid μ]

/-- The table after a write. -/
def apply (table : κ → μ) : Write κ μ → κ → μ
  | clear key => modifyAt table key fun _ => 0
  | add key amount => addAt table key amount

/-- A write keeps the other entries. -/
theorem apply_of_ne (table : κ → μ) (write : Write κ μ) {entry : κ} (other : write.key ≠ entry) :
    write.apply table entry = table entry := by
  cases write with
  | clear key =>
    have apart : entry ≠ key := Ne.symm other
    simp [apply, apart]
  | add key amount =>
    have apart : entry ≠ key := Ne.symm other
    exact addAt_ne table amount apart

/-- An entry only depends on what it was. -/
theorem foldl_congr (writes : List (Write κ μ)) {table table' : κ → μ} {entry : κ}
    (same : table entry = table' entry) :
    writes.foldl apply table entry = writes.foldl apply table' entry := by
  induction writes generalizing table table' with
  | nil => exact same
  | cons write writes ih =>
    apply ih
    by_cases here : write.key = entry
    · cases write with
      | clear key =>
        obtain rfl : key = entry := here
        simp [apply]
      | add key amount =>
        obtain rfl : key = entry := here
        simp [apply, same]
    · rw [apply_of_ne _ _ here, apply_of_ne _ _ here, same]

/-- Only the writes to an entry matter for it. -/
theorem foldl_filter (writes : List (Write κ μ)) (table : κ → μ) (entry : κ) :
    writes.foldl apply table entry =
      (writes.filter fun write => write.key = entry).foldl apply table entry := by
  induction writes generalizing table with
  | nil => rfl
  | cons write writes ih =>
    by_cases here : write.key = entry
    · rw [List.filter_cons_of_pos (by simpa using here), List.foldl_cons, List.foldl_cons, ih]
    · rw [List.filter_cons_of_neg (by simpa using here), List.foldl_cons, ih]
      exact foldl_congr _ (apply_of_ne table write here)

/-- The one program that writes an entry decides what is left in it. -/
theorem foldl_interleaved {run : List (ι × Write κ μ)} {program : ι → List (Write κ μ)}
    (interleaves : Interleaves run program) (table : κ → μ) {entry : κ} {task : ι}
    (others : ∀ other ≠ task, ∀ write ∈ program other, write.key ≠ entry) :
    (run.map Prod.snd).foldl apply table entry = (program task).foldl apply table entry := by
  rw [foldl_filter, foldl_filter (program task), ← interleaves task, List.filter_map,
    List.filter_map, List.filter_filter]
  refine congrArg (fun steps : List (ι × Write κ μ) =>
    (steps.map Prod.snd).foldl apply table entry) ?_
  apply List.filter_congr
  intro step member
  by_cases here : step.2.key = entry
  · have mine : step.1 = task := by
      by_contra other
      exact others step.1 other step.2 (interleaves.mem member) here
    simp [mine]
  · simp [here]

end Write

section Amounts

omit [DecidableEq ι]

variable [AddCommMonoid μ]

/-- What additions give to an entry. -/
def amountAt (adds : List (κ × μ)) (entry : κ) : μ :=
  (adds.map fun pair => if pair.1 = entry then pair.2 else 0).sum

/-- The amounts of two lists add up. -/
theorem amountAt_append (adds more : List (κ × μ)) (entry : κ) :
    amountAt (adds ++ more) entry = amountAt adds entry + amountAt more entry := by
  simp [amountAt]

/-- The amount of an entry over some events. -/
theorem amountAt_map (events : List ι) (key : ι → κ) (amount : ι → μ) (entry : κ) :
    amountAt (events.map fun event => (key event, amount event)) entry =
      (events.map fun event => if key event = entry then amount event else 0).sum := by
  simp [amountAt, Function.comp_def]

/-- The amount of an entry over some events with several additions. -/
theorem amountAt_flatMap (events : List ι) (adds : ι → List (κ × μ)) (entry : κ) :
    amountAt (events.flatMap adds) entry =
      (events.map fun event => amountAt (adds event) entry).sum := by
  induction events with
  | nil => rfl
  | cons event events ih =>
    rw [List.flatMap_cons, amountAt_append, ih, List.map_cons, List.sum_cons]

/-- Additions to other entries add nothing. -/
theorem amountAt_eq_zero {adds : List (κ × μ)} {entry : κ}
    (others : ∀ pair ∈ adds, pair.1 ≠ entry) : amountAt adds entry = 0 := by
  refine List.sum_eq_zero fun amount member => ?_
  obtain ⟨pair, inside, rfl⟩ := List.mem_map.mp member
  exact if_neg (others pair inside)

omit [DecidableEq κ] in
/-- A sum over a list that has all that counts once. -/
theorem sum_map_of_nodup [Fintype ι] {list : List ι}
    (nodup : list.Nodup) {amount : ι → μ} (rest : ∀ x, x ∉ list → amount x = 0) :
    (list.map amount).sum = ∑ x, amount x := by
  classical
  rw [← List.sum_toFinset amount nodup]
  exact Finset.sum_subset (Finset.subset_univ _) fun x _ outside =>
    rest x fun member => outside (List.mem_toFinset.mpr member)

/-- The amount of an entry in a list of entries without repetitions. -/
theorem amountAt_of_nodup {entries : List κ} (nodup : entries.Nodup) {entry : κ}
    (member : entry ∈ entries) (amount : κ → μ) :
    amountAt (entries.map fun other => (other, amount other)) entry = amount entry := by
  rw [amountAt_map]
  induction entries with
  | nil => cases member
  | cons first entries ih =>
    obtain ⟨fresh, nodup⟩ := List.nodup_cons.mp nodup
    rw [List.map_cons, List.sum_cons]
    by_cases here : first = entry
    · subst here
      rw [if_pos rfl, List.sum_eq_zero, add_zero]
      intro term member
      obtain ⟨other, inside, rfl⟩ := List.mem_map.mp member
      refine if_neg ?_
      rintro rfl
      exact fresh inside
    · rw [if_neg here, zero_add]
      exact ih nodup ((List.mem_cons.mp member).resolve_left (Ne.symm here))

end Amounts

/-- A task that clears entries and then adds to entries. -/
structure Task (κ μ : Type*) where
  clears : List κ
  adds : List (κ × μ)

namespace Task

/-- The writes of a task. -/
def writes (task : Task κ μ) : List (Write κ μ) :=
  task.clears.map Write.clear ++ task.adds.map fun pair => Write.add pair.1 pair.2

/-- The entries that a task writes. -/
def keys (task : Task κ μ) : List κ := task.writes.map Write.key

omit [DecidableEq κ] in
/-- The entries that a task writes. -/
theorem mem_keys {task : Task κ μ} {entry : κ} :
    entry ∈ task.keys ↔ entry ∈ task.clears ∨ ∃ pair ∈ task.adds, pair.1 = entry := by
  simp [keys, writes, Write.key]

variable [AddCommMonoid μ]

/-- The table after a task. -/
def run (task : Task κ μ) (table : κ → μ) : κ → μ := task.writes.foldl Write.apply table

/-- An entry behind a task. -/
theorem run_apply (task : Task κ μ) (table : κ → μ) (entry : κ) :
    task.run table entry =
      (if entry ∈ task.clears then 0 else table entry) + amountAt task.adds entry := by
  have cleared : ∀ (clears : List κ) (table : κ → μ),
      (clears.map Write.clear).foldl Write.apply table entry =
        if entry ∈ clears then 0 else table entry := by
    intro clears
    induction clears with
    | nil => exact fun _ => rfl
    | cons first clears ih =>
      intro table
      rw [List.map_cons, List.foldl_cons, ih]
      by_cases later : entry ∈ clears
      · simp [later]
      · by_cases here : entry = first <;> simp [later, here, Write.apply]
  have added : ∀ (adds : List (κ × μ)) (table : κ → μ),
      (adds.map fun pair => Write.add pair.1 pair.2).foldl Write.apply table entry =
        table entry + amountAt adds entry := by
    intro adds
    induction adds with
    | nil => simp [amountAt]
    | cons pair adds ih =>
      intro table
      rw [List.map_cons, List.foldl_cons, ih]
      simp only [Write.apply, addAt_apply, amountAt, List.map_cons, List.sum_cons]
      rw [add_assoc]
  rw [run, writes, List.foldl_append, added, cleared]

/-- Tasks run together in some interleaving of their writes. -/
def Runs (tasks : ι → Task κ μ) (table result : κ → μ) : Prop :=
  ∃ run, Interleaves run (fun task => (tasks task).writes) ∧
    result = (run.map Prod.snd).foldl Write.apply table

/-- Tasks that run one after the other. -/
theorem runs_of_order (tasks : ι → Task κ μ) (table : κ → μ) {order : List ι}
    (nodup : order.Nodup) (all : ∀ task, task ∈ order) :
    Runs tasks table (order.foldl (fun table task => (tasks task).run table) table) := by
  refine ⟨_, interleaves_of_order _ nodup all, ?_⟩
  rw [List.map_flatMap, List.foldl_flatMap]
  simp only [List.map_map, Function.comp_def, List.map_id']
  rfl

/-- Where one task writes an entry, it decides what is left in it. -/
theorem Runs.apply {tasks : ι → Task κ μ} {table result : κ → μ} (runs : Runs tasks table result)
    {entry : κ} {task : ι} (others : ∀ other ≠ task, entry ∉ (tasks other).keys) :
    result entry = (tasks task).run table entry := by
  obtain ⟨run, interleaves, rfl⟩ := runs
  apply Write.foldl_interleaved interleaves
  intro other apart write member here
  exact others other apart (List.mem_map.mpr ⟨write, member, here⟩)

end Task

end P3arsec.Lib
