import P3arsec.Lib.Marks

/-!
# Crews of workers

A job is the list of the items that a worker handles for it. A worker has a mailbox of jobs, takes
the oldest one, handles its items in order, and finishes it. A job that is sent makes an item to
handle of each of its items, and no item is lost or handled twice (`accounts_send`,
`accounts_begin`, `accounts_call`, `accounts_finish`).
-/

namespace P3arsec.Lib

variable {α : Type*}

/-- A worker. -/
structure Lane (α : Type*) where
  /-- The jobs in the mailbox, the oldest first. -/
  queue : List (List α) := []
  /-- What is left to handle of the job in hand. -/
  current : Option (List α) := none
  deriving DecidableEq

namespace Lane

/-- The jobs of a worker, the one in hand among them. -/
def jobs (lane : Lane α) : Nat := lane.queue.length + lane.current.toList.length

/-- The items that a worker has still to handle. -/
def left (lane : Lane α) : Multiset α :=
  (lane.queue.flatten : Multiset α) + (lane.current.getD [] : Multiset α)

/-- The number of steps that a worker has still to take. -/
def work (lane : Lane α) : Nat :=
  2 * lane.queue.length + lane.current.toList.length + lane.left.card

/-- A lane without jobs has nothing left. -/
theorem left_eq_zero {lane : Lane α} (none : lane.jobs = 0) : lane.left = 0 := by
  obtain ⟨queue, current⟩ := lane
  cases current <;> simp_all [jobs, left]

end Lane

/-- Workers, and the items that have been handled. -/
structure Crew (α : Type*) where
  /-- The workers. -/
  lanes : Nat → Lane α := fun _ => {}
  /-- The items that have been handled, the oldest first. -/
  called : List α := []

namespace Crew

/-- A job is put into the mailbox of a worker. -/
def send (w : Nat) (job : List α) (crew : Crew α) : Crew α :=
  { crew with
    lanes := Function.update crew.lanes w
      { crew.lanes w with queue := (crew.lanes w).queue ++ [job] } }

/-- A worker with nothing in hand takes the oldest job of its mailbox. -/
def begin (w : Nat) (crew : Crew α) : Option (Crew α) :=
  match crew.lanes w with
  | { queue := job :: queue, current := none } =>
    some { crew with lanes := Function.update crew.lanes w { queue, current := some job } }
  | _ => none

/-- A worker handles the next item of the job in hand. -/
def call (w : Nat) (crew : Crew α) : Option (Crew α) :=
  match crew.lanes w with
  | { queue, current := some (item :: items) } =>
    some
      { lanes := Function.update crew.lanes w { queue, current := some items }
        called := crew.called ++ [item] }
  | _ => none

/-- A worker finishes a job that has no more items. -/
def finish (w : Nat) (crew : Crew α) : Option (Crew α) :=
  match crew.lanes w with
  | { queue, current := some [] } =>
    some { crew with lanes := Function.update crew.lanes w { queue, current := none } }
  | _ => none

variable {crew next : Crew α} {w n : Nat}

/-- A worker begins a job when it has none and one waits. -/
theorem begin_cases (begins : crew.begin w = some next) :
    ∃ job queue, crew.lanes w = { queue := job :: queue, current := none } ∧
      next =
        { crew with lanes := Function.update crew.lanes w { queue, current := some job } } := by
  unfold begin at begins
  split at begins
  · rename_i job queue here
    exact ⟨job, queue, here, (Option.some.inj begins).symm⟩
  · cases begins

/-- A worker calls the next item of its job. -/
theorem call_cases (calls : crew.call w = some next) :
    ∃ queue item items, crew.lanes w = { queue, current := some (item :: items) } ∧
      next =
        { lanes := Function.update crew.lanes w { queue, current := some items }
          called := crew.called ++ [item] } := by
  unfold call at calls
  split at calls
  · rename_i queue item items here
    exact ⟨queue, item, items, here, (Option.some.inj calls).symm⟩
  · cases calls

/-- A worker finishes a job whose items have been called. -/
theorem finish_cases (finishes : crew.finish w = some next) :
    ∃ queue, crew.lanes w = { queue, current := some [] } ∧
      next = { crew with lanes := Function.update crew.lanes w { queue, current := none } } := by
  unfold finish at finishes
  split at finishes
  · rename_i queue here
    exact ⟨queue, here, (Option.some.inj finishes).symm⟩
  · cases finishes

/-- The jobs of the workers below a number. -/
def jobs (n : Nat) (crew : Crew α) : Nat := ∑ w ∈ Finset.range n, (crew.lanes w).jobs

/-- The items that the workers below a number have still to handle. -/
def left (n : Nat) (crew : Crew α) : Multiset α := ∑ w ∈ Finset.range n, (crew.lanes w).left

/-- The number of steps that the workers below a number have still to take. -/
def work (n : Nat) (crew : Crew α) : Nat := ∑ w ∈ Finset.range n, (crew.lanes w).work

/-- Only the workers below a number have jobs. -/
def Within (n : Nat) (crew : Crew α) : Prop := ∀ w, n ≤ w → (crew.lanes w).jobs = 0

/-- The items that have been handled and those that have still to be. -/
def accounts (n : Nat) (crew : Crew α) : Multiset α := crew.called + crew.left n

/-- A new crew has no jobs. -/
@[simp] theorem jobs_new : ({} : Crew α).jobs n = 0 := by simp [jobs, Lane.jobs]

/-- A new crew has no items. -/
@[simp] theorem accounts_new : ({} : Crew α).accounts n = 0 := by
  simp [accounts, left, Lane.left]

/-- A new crew has no worker at work. -/
theorem within_new : ({} : Crew α).Within n := fun _ _ => rfl

/-- A worker with a job in hand or in its mailbox is below the number. -/
theorem Within.lt (within : crew.Within n) (has : 0 < (crew.lanes w).jobs) : w < n := by
  by_contra beyond
  have none := within w (not_lt.mp beyond)
  omega

/-- A lane below the bound may change. -/
theorem Within.update (within : crew.Within n) {lane : Lane α} {called : List α}
    (inside : w < n) : Within n { lanes := Function.update crew.lanes w lane, called } := by
  intro other beyond
  dsimp only
  rw [Function.update_of_ne (by omega)]
  exact within other beyond

/-- Workers without jobs have handled all items. -/
theorem called_of_jobs (none : crew.jobs n = 0) : crew.called = crew.accounts n := by
  have nothing : crew.left n = 0 := by
    apply Finset.sum_eq_zero
    intro w inside
    exact Lane.left_eq_zero (Finset.sum_eq_zero_iff.mp none w inside)
  rw [accounts, nothing, add_zero]

section Send

/-- A job may be sent to a lane below the bound. -/
theorem within_send (within : crew.Within n) (inside : w < n) (job : List α) :
    (crew.send w job).Within n := within.update inside

/-- A job that is sent is counted. -/
theorem jobs_send (crew : Crew α) (inside : w < n) (job : List α) :
    (crew.send w job).jobs n = crew.jobs n + 1 := by
  have sum := sum_range_update Lane.jobs crew.lanes
    { crew.lanes w with queue := (crew.lanes w).queue ++ [job] } inside
  simp only [jobs, send]
  simp only [Lane.jobs, List.length_append, List.length_singleton] at sum ⊢
  omega

/-- The items of a job that is sent are counted. -/
theorem accounts_send (inside : w < n) (job : List α) :
    (crew.send w job).accounts n = crew.accounts n + job := by
  have sum := sum_range_update Lane.left crew.lanes
    { crew.lanes w with queue := (crew.lanes w).queue ++ [job] } inside
  have more : Lane.left { crew.lanes w with queue := (crew.lanes w).queue ++ [job] } =
      (crew.lanes w).left + job := by
    simp only [Lane.left, List.flatten_append, List.flatten_singleton, ← Multiset.coe_add]
    exact add_right_comm _ _ _
  rw [more, ← add_assoc, add_right_comm] at sum
  simp only [accounts, left, send]
  rw [add_right_cancel sum, add_assoc]

/-- The work of a job that is sent: to begin, to finish and to call each item. -/
theorem work_send (crew : Crew α) (inside : w < n) (job : List α) :
    (crew.send w job).work n = crew.work n + 2 + job.length := by
  have sum := sum_range_update Lane.work crew.lanes
    { crew.lanes w with queue := (crew.lanes w).queue ++ [job] } inside
  simp only [work, send]
  simp [Lane.work, Lane.left] at sum ⊢
  omega

end Send

section Begin

/-- Only a lane below the bound begins a job. -/
theorem within_begin (begins : crew.begin w = some next) (within : crew.Within n) :
    w < n ∧ next.Within n := by
  obtain ⟨job, queue, here, rfl⟩ := begin_cases begins
  have inside : w < n := within.lt (by simp [here, Lane.jobs])
  exact ⟨inside, within.update inside⟩

/-- A job that has begun is still counted. -/
theorem jobs_begin (begins : crew.begin w = some next) (within : crew.Within n) :
    next.jobs n = crew.jobs n := by
  have inside := (within_begin begins within).1
  obtain ⟨job, queue, here, rfl⟩ := begin_cases begins
  have sum := sum_range_update Lane.jobs crew.lanes { queue, current := some job } inside
  simp only [jobs]
  simp only [here, Lane.jobs, List.length_cons, Option.toList] at sum ⊢
  simpa using sum

/-- The items of a job that has begun are still counted. -/
theorem accounts_begin (begins : crew.begin w = some next) (within : crew.Within n) :
    next.accounts n = crew.accounts n := by
  have inside := (within_begin begins within).1
  obtain ⟨job, queue, here, rfl⟩ := begin_cases begins
  have sum := sum_range_update Lane.left crew.lanes { queue, current := some job } inside
  have same : Lane.left { queue, current := some job } = (crew.lanes w).left := by
    simp [here, Lane.left, add_comm]
  rw [same] at sum
  simp only [accounts, left]
  rw [add_right_cancel sum]

/-- There is less work behind a begin. -/
theorem work_begin (begins : crew.begin w = some next) (within : crew.Within n) :
    next.work n < crew.work n := by
  have inside := (within_begin begins within).1
  obtain ⟨job, queue, here, rfl⟩ := begin_cases begins
  have sum := sum_range_update Lane.work crew.lanes { queue, current := some job } inside
  simp only [work]
  simp [here, Lane.work, Lane.left] at sum ⊢
  omega

end Begin

section Call

/-- Only a lane below the bound calls an item. -/
theorem within_call (calls : crew.call w = some next) (within : crew.Within n) :
    w < n ∧ next.Within n := by
  obtain ⟨queue, item, items, here, rfl⟩ := call_cases calls
  have inside : w < n := within.lt (by simp [here, Lane.jobs])
  exact ⟨inside, within.update inside⟩

/-- A call finishes no job. -/
theorem jobs_call (calls : crew.call w = some next) (within : crew.Within n) :
    next.jobs n = crew.jobs n := by
  have inside := (within_call calls within).1
  obtain ⟨queue, item, items, here, rfl⟩ := call_cases calls
  have sum := sum_range_update Lane.jobs crew.lanes { queue, current := some items } inside
  simp only [jobs]
  simpa [here, Lane.jobs] using sum

/-- An item that is called is still counted. -/
theorem accounts_call (calls : crew.call w = some next) (within : crew.Within n) :
    next.accounts n = crew.accounts n := by
  have inside := (within_call calls within).1
  obtain ⟨queue, item, items, here, rfl⟩ := call_cases calls
  have sum := sum_range_update Lane.left crew.lanes { queue, current := some items } inside
  have one : (crew.lanes w).left = {item} + Lane.left { queue, current := some items } := by
    simp only [here, Lane.left, Option.getD_some, ← Multiset.cons_coe, ← Multiset.singleton_add]
    exact add_left_comm _ _ _
  rw [one, ← add_assoc] at sum
  simp only [accounts, left]
  rw [← add_right_cancel sum, ← Multiset.coe_add, Multiset.coe_singleton, add_assoc,
    add_comm ({item} : Multiset α)]

/-- There is less work behind a call. -/
theorem work_call (calls : crew.call w = some next) (within : crew.Within n) :
    next.work n < crew.work n := by
  have inside := (within_call calls within).1
  obtain ⟨queue, item, items, here, rfl⟩ := call_cases calls
  have sum := sum_range_update Lane.work crew.lanes { queue, current := some items } inside
  simp only [work]
  simp [here, Lane.work, Lane.left] at sum ⊢
  omega

end Call

section Finish

/-- Only a lane below the bound finishes a job. -/
theorem within_finish (finishes : crew.finish w = some next) (within : crew.Within n) :
    w < n ∧ next.Within n := by
  obtain ⟨queue, here, rfl⟩ := finish_cases finishes
  have inside : w < n := within.lt (by simp [here, Lane.jobs])
  exact ⟨inside, within.update inside⟩

/-- A job that is finished is counted no more. -/
theorem jobs_finish (finishes : crew.finish w = some next) (within : crew.Within n) :
    next.jobs n + 1 = crew.jobs n := by
  have inside := (within_finish finishes within).1
  obtain ⟨queue, here, rfl⟩ := finish_cases finishes
  have sum := sum_range_update Lane.jobs crew.lanes { queue, current := none } inside
  simp only [jobs]
  simp [here, Lane.jobs] at sum ⊢
  omega

/-- No items are lost with a job that is finished. -/
theorem accounts_finish (finishes : crew.finish w = some next) (within : crew.Within n) :
    next.accounts n = crew.accounts n := by
  have inside := (within_finish finishes within).1
  obtain ⟨queue, here, rfl⟩ := finish_cases finishes
  have sum := sum_range_update Lane.left crew.lanes { queue, current := none } inside
  have same : Lane.left { queue, current := none } = (crew.lanes w).left := by
    simp [here, Lane.left]
  rw [same] at sum
  simp only [accounts, left]
  rw [add_right_cancel sum]

/-- There is less work behind the end of a job. -/
theorem work_finish (finishes : crew.finish w = some next) (within : crew.Within n) :
    next.work n < crew.work n := by
  have inside := (within_finish finishes within).1
  obtain ⟨queue, here, rfl⟩ := finish_cases finishes
  have sum := sum_range_update Lane.work crew.lanes { queue, current := none } inside
  simp only [work]
  simp [here, Lane.work, Lane.left] at sum ⊢
  omega

end Finish

/-- While there are jobs some worker can take a step. -/
theorem exists_step (some : 0 < crew.jobs n) :
    ∃ w < n, (crew.begin w).isSome ∨ (crew.call w).isSome ∨ (crew.finish w).isSome := by
  obtain ⟨w, inside, has⟩ := Finset.exists_ne_zero_of_sum_ne_zero some.ne'
  refine ⟨w, Finset.mem_range.mp inside, ?_⟩
  unfold begin call finish
  generalize crew.lanes w = lane at has
  obtain ⟨queue, current⟩ := lane
  rcases current with _ | _ | ⟨item, items⟩
  · rcases queue with _ | ⟨job, queue⟩
    · exact absurd rfl has
    · exact .inl rfl
  · exact .inr (.inr rfl)
  · exact .inr (.inl rfl)

end Crew

end P3arsec.Lib
