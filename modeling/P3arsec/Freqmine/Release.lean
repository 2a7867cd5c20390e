import P3arsec.Lib.Run

/-!
# Releasing node arrays

The threads of `FP_growth_first` mine the items from the last one down. After an item a thread
publishes it in `thread_finish_status`, computes the greatest published item, and releases the node
arrays from that item on. Every thread has then finished all items from there on that it took.

The greatest item is kept in `current`, and an entry that is greater is read a second time for the
assignment. When its thread has published a smaller item in between, `current` falls below an entry
that has been passed, and the array of an item in progress is released.
-/

namespace P3arsec.Freqmine

open P3arsec.Lib

/-- Where a thread is in the body of the parallel loop. -/
inductive Mining where
  /-- Before the next item. -/
  | idle
  /-- Between the begin of an item and the call of `release_node_array_after_mining`. -/
  | mining (sequence : Nat)
  /-- Before an entry is compared with `current`. -/
  | test (i current : Nat)
  /-- Before the entry is assigned to `current`. -/
  | assign (i current : Nat)
  /-- Before the lock. -/
  | lock (current : Nat)
  /-- In the critical section. -/
  | critical (current : Nat)
  /-- Before the unlock. -/
  | unlock
  deriving DecidableEq

/-- The shared variables and the threads. -/
structure Miners where
  /-- The items below are still to be handed out. -/
  next : Nat
  /-- `thread_finish_status`. -/
  threadFinishStatus : Nat → Nat
  /-- `released_pos`. -/
  releasedPos : Nat
  /-- The items below have an array in `fp_node_sub_buf`. -/
  top : Nat
  /-- The items whose arrays have been freed. -/
  freed : List Nat
  /-- The thread that holds the lock. -/
  owner : Option Nat
  /-- The threads. -/
  threads : Nat → Mining

namespace Miners

variable (itemno workingthread : Nat)

/-- The begin of the parallel loop. -/
def start : Miners where
  next := itemno
  threadFinishStatus _ := itemno
  releasedPos := itemno
  top := itemno
  freed := []
  owner := none
  threads _ := .idle

/-- A thread goes on. -/
def goto (thread : Nat) (mining : Mining) (m : Miners) : Miners :=
  { m with threads := Function.update m.threads thread mining }

/-- The thread goes on. -/
@[simp] theorem threads_goto_self (thread : Nat) (mining : Mining) (m : Miners) :
    (m.goto thread mining).threads thread = mining := Function.update_self ..

/-- `freebuf` with the mark of an item, which was made before its array: that array and all later
ones are freed. -/
def freebuf (mark : Nat) (m : Miners) : Miners :=
  { m with top := mark, freed := m.freed ++ List.range' mark (m.top - mark) }

/-- A step of a thread. -/
def step (thread : Nat) (m : Miners) : Option Miners :=
  match m.threads thread with
  | .idle =>
    if 0 < m.next then
      some ({ m with next := m.next - 1 }.goto thread (.mining (m.next - 1)))
    else none
  | .mining sequence =>
    some ({ m with
      threadFinishStatus := Function.update m.threadFinishStatus thread sequence }.goto thread
        (.test 0 0))
  | .test i current =>
    if i < workingthread then
      if current < m.threadFinishStatus i then some (m.goto thread (.assign i current))
      else some (m.goto thread (.test (i + 1) current))
    else some (m.goto thread (.lock current))
  | .assign i _ => some (m.goto thread (.test (i + 1) (m.threadFinishStatus i)))
  | .lock current =>
    if m.owner = none then some ({ m with owner := some thread }.goto thread (.critical current))
    else none
  | .critical current =>
    if current < m.releasedPos then
      some (({ m with releasedPos := current }.freebuf current).goto thread .unlock)
    else some (m.goto thread .unlock)
  | .unlock => some ({ m with owner := none }.goto thread .idle)

/-- An entry that is read for the assignment has not fallen below `current`. -/
def Steady (thread : Nat) (m : Miners) : Prop :=
  match m.threads thread with
  | .assign i current => current ≤ m.threadFinishStatus i
  | _ => True

instance (thread : Nat) (m : Miners) : Decidable (m.Steady thread) := by
  unfold Steady
  split <;> infer_instance

/-- The states of runs in which each step meets a condition. -/
def Reached (condition : Nat → Miners → Prop) : Miners → Prop :=
  Reachable (· = start itemno) fun m next =>
    ∃ thread < workingthread, condition thread m ∧ m.step workingthread thread = some next

variable {itemno workingthread} {m m' : Miners} {thread : Nat}

/-- The steps. -/
inductive Moves (workingthread thread : Nat) (m : Miners) : Miners → Prop where
  /-- An item is handed out. -/
  | take (idle : m.threads thread = .idle) (left : 0 < m.next) :
    Moves workingthread thread m
      ({ m with next := m.next - 1 }.goto thread (.mining (m.next - 1)))
  /-- An item is published. -/
  | publish {sequence : Nat} (mining : m.threads thread = .mining sequence) :
    Moves workingthread thread m ({ m with
      threadFinishStatus := Function.update m.threadFinishStatus thread sequence }.goto thread
        (.test 0 0))
  /-- An entry is greater. -/
  | greater {i current : Nat} (test : m.threads thread = .test i current)
    (inside : i < workingthread) :
    Moves workingthread thread m (m.goto thread (.assign i current))
  /-- An entry is not greater. -/
  | smaller {i current : Nat} (test : m.threads thread = .test i current)
    (less : m.threadFinishStatus i ≤ current) :
    Moves workingthread thread m (m.goto thread (.test (i + 1) current))
  /-- The entries have been passed. -/
  | passed {i current : Nat} (test : m.threads thread = .test i current)
    (all : workingthread ≤ i) : Moves workingthread thread m (m.goto thread (.lock current))
  /-- An entry is assigned. -/
  | assign {i current : Nat} (assign : m.threads thread = .assign i current) :
    Moves workingthread thread m (m.goto thread (.test (i + 1) (m.threadFinishStatus i)))
  /-- The lock is taken. -/
  | lock {current : Nat} (lock : m.threads thread = .lock current) :
    Moves workingthread thread m ({ m with owner := some thread }.goto thread (.critical current))
  /-- Arrays are released. -/
  | release {current : Nat} (critical : m.threads thread = .critical current)
    (less : current < m.releasedPos) :
    Moves workingthread thread m
      (({ m with releasedPos := current }.freebuf current).goto thread .unlock)
  /-- Nothing is released. -/
  | keep {current : Nat} (critical : m.threads thread = .critical current) :
    Moves workingthread thread m (m.goto thread .unlock)
  /-- The lock is released. -/
  | unlock (unlock : m.threads thread = .unlock) :
    Moves workingthread thread m ({ m with owner := none }.goto thread .idle)

/-- A step is a move. -/
theorem step_moves (steps : m.step workingthread thread = some m') :
    Moves workingthread thread m m' := by
  unfold step at steps
  cases phase : m.threads thread with
  | idle =>
    rw [phase] at steps
    dsimp only at steps
    split at steps
    case isTrue left =>
      cases steps
      exact .take phase left
    case isFalse => cases steps
  | mining sequence =>
    rw [phase] at steps
    cases steps
    exact .publish phase
  | test i current =>
    rw [phase] at steps
    dsimp only at steps
    split at steps
    case isTrue inside =>
      split at steps
      case isTrue =>
        cases steps
        exact .greater phase inside
      case isFalse less =>
        cases steps
        exact .smaller phase (Nat.le_of_not_lt less)
    case isFalse all =>
      cases steps
      exact .passed phase (Nat.le_of_not_lt all)
  | assign i current =>
    rw [phase] at steps
    cases steps
    exact .assign phase
  | lock current =>
    rw [phase] at steps
    dsimp only at steps
    split at steps
    case isTrue =>
      cases steps
      exact .lock phase
    case isFalse => cases steps
  | critical current =>
    rw [phase] at steps
    dsimp only at steps
    split at steps
    case isTrue less =>
      cases steps
      exact .release phase less
    case isFalse =>
      cases steps
      exact .keep phase
  | unlock =>
    rw [phase] at steps
    cases steps
    exact .unlock phase

/-- The arrays below `released_pos` are in the buffer, and no other one has been freed. -/
structure Stacked (m : Miners) : Prop where
  /-- The buffer ends at `released_pos`. -/
  top : m.top = m.releasedPos
  /-- The arrays that have been freed are above. -/
  above : ∀ sequence ∈ m.freed, m.releasedPos ≤ sequence
  /-- No array has been freed twice. -/
  nodup : m.freed.Nodup

/-- The stack is empty at the start. -/
theorem stacked_start : Stacked (start itemno) := ⟨rfl, nofun, List.nodup_nil⟩

/-- A step frees no array twice, and `released_pos` does not rise. -/
theorem Stacked.step (stacked : m.Stacked) (moves : Moves workingthread thread m m') :
    m'.Stacked ∧ m'.releasedPos ≤ m.releasedPos := by
  cases moves with
  | @release current critical less =>
    have ends := stacked.top
    refine ⟨⟨rfl, ?_, ?_⟩, less.le⟩
    · intro sequence member
      rcases List.mem_append.mp member with old | new
      · exact less.le.trans (stacked.above sequence old)
      · exact (List.mem_range'_1.mp new).1
    · refine List.Nodup.append stacked.nodup List.nodup_range' ?_
      intro sequence old new
      have above := stacked.above sequence old
      have below := (List.mem_range'_1.mp new).2
      dsimp only at below
      omega
  | _ => exact ⟨⟨stacked.top, stacked.above, stacked.nodup⟩, le_rfl⟩

/-- A thread is not mining an item from a bound on. -/
def Below (bound thread : Nat) (m : Miners) : Prop :=
  ∀ sequence, m.threads thread = .mining sequence → sequence < bound

/-- All items from a bound on have been mined. -/
def Mined (workingthread bound : Nat) (m : Miners) : Prop :=
  m.next ≤ bound ∧ ∀ thread < workingthread, m.Below bound thread

/-- The entries that a thread has passed are at most `current`, and so are the items in progress of
their threads. -/
def Passed (i current : Nat) (m : Miners) : Prop :=
  i = 0 ∨ m.next ≤ current ∧ ∀ thread < i, m.Below current thread

/-- What a thread knows while it computes the greatest entry. -/
def Known (workingthread : Nat) (m : Miners) : Mining → Prop
  | .test i current => m.Passed i current
  | .assign i current => i < workingthread ∧ m.Passed i current
  | .lock current => m.Mined workingthread current
  | .critical current => m.Mined workingthread current
  | _ => True

/-- The invariant. -/
structure Inv (workingthread : Nat) (m : Miners) : Prop where
  /-- Published items have been handed out. -/
  published : ∀ thread, m.next ≤ m.threadFinishStatus thread
  /-- An item in progress has been handed out, after the one that its thread has published. -/
  took : ∀ thread sequence, m.threads thread = .mining sequence →
    m.next ≤ sequence ∧ sequence < m.threadFinishStatus thread
  /-- What the threads know. -/
  known : ∀ thread < workingthread, m.Known workingthread (m.threads thread)
  /-- The items whose arrays have been freed have been mined. -/
  freed : ∀ sequence ∈ m.freed, m.Mined workingthread sequence

/-- The invariant holds at the start. -/
theorem inv_start : (start itemno).Inv workingthread :=
  ⟨fun _ => le_rfl, nofun, fun _ _ => trivial, nofun⟩

/-- Items are handed out from the last one down. -/
theorem Moves.next_le (moves : Moves workingthread thread m m') : m'.next ≤ m.next := by
  cases moves with
  | take => exact Nat.sub_le _ _
  | _ => exact le_rfl

/-- An item that is begun is below the ones that have been handed out. -/
theorem Moves.below (moves : Moves workingthread thread m m') {bound other : Nat}
    (handed : m.next ≤ bound) (below : m.Below bound other) : m'.Below bound other := by
  intro sequence mining
  by_cases mine : other = thread
  · subst mine
    cases moves with
    | take idle left =>
      have same : Function.update m.threads other (.mining (m.next - 1)) other =
          .mining sequence := mining
      rw [Function.update_self] at same
      cases same
      omega
    | _ =>
      have same := (Function.update_self other _ m.threads).symm.trans mining
      cases same
  · refine below sequence ?_
    cases moves <;> exact (Function.update_of_ne mine _ m.threads).symm.trans mining

/-- What has been mined stays so. -/
theorem Moves.mined (moves : Moves workingthread thread m m') {bound : Nat}
    (mined : m.Mined workingthread bound) : m'.Mined workingthread bound :=
  ⟨moves.next_le.trans mined.1, fun other inside => moves.below mined.1 (mined.2 other inside)⟩

/-- What has been passed stays so. -/
theorem Moves.passed_of (moves : Moves workingthread thread m m') {i current : Nat}
    (passed : m.Passed i current) : m'.Passed i current := by
  rcases passed with none | ⟨handed, below⟩
  · exact .inl none
  · exact .inr ⟨moves.next_le.trans handed, fun other less => moves.below handed (below other less)⟩

/-- What another thread knows stays true. -/
theorem Moves.known (moves : Moves workingthread thread m m') {mining : Mining}
    (known : m.Known workingthread mining) : m'.Known workingthread mining := by
  cases mining with
  | test i current => exact moves.passed_of known
  | assign i current => exact ⟨known.1, moves.passed_of known.2⟩
  | lock current => exact moves.mined known
  | critical current => exact moves.mined known
  | _ => trivial

/-- A thread is below every greater bound. -/
theorem Below.mono {bound bound' : Nat} (below : m.Below bound thread) (le : bound ≤ bound') :
    m.Below bound' thread := fun sequence mining => (below sequence mining).trans_le le

/-- One more entry has been passed. -/
theorem Inv.pass (inv : m.Inv workingthread) {i current next : Nat} (passed : m.Passed i current)
    (grows : current ≤ next) (covers : m.threadFinishStatus i ≤ next) :
    m.Passed (i + 1) next := by
  refine .inr ⟨(inv.published i).trans covers, fun other less => ?_⟩
  by_cases here : other = i
  · subst here
    exact fun sequence mining => (inv.took other sequence mining).2.trans_le covers
  · rcases passed with none | ⟨-, below⟩
    · omega
    · exact (below other (by omega)).mono grows

/-- The other threads stay where they are. -/
theorem Moves.others (moves : Moves workingthread thread m m') {other : Nat}
    (apart : other ≠ thread) : m'.threads other = m.threads other := by
  cases moves <;> exact Function.update_of_ne apart _ m.threads

/-- What the thread that takes the step knows after it. -/
theorem Inv.own (inv : m.Inv workingthread) (inside : thread < workingthread)
    (steady : m.Steady thread) (moves : Moves workingthread thread m m') :
    m'.Known workingthread (m'.threads thread) := by
  have known := inv.known thread inside
  have same := moves
  cases moves with
  | take idle left =>
    rw [threads_goto_self]
    exact trivial
  | publish mining =>
    rw [threads_goto_self]
    exact .inl rfl
  | greater test within =>
    rw [test] at known
    rw [threads_goto_self]
    exact ⟨within, same.passed_of known⟩
  | smaller test less =>
    rw [test] at known
    rw [threads_goto_self]
    exact same.passed_of (inv.pass known le_rfl less)
  | passed test all =>
    rw [test] at known
    rcases known with none | ⟨handed, below⟩
    · omega
    · rw [threads_goto_self]
      exact same.mined ⟨handed, fun other less => below other (by omega)⟩
  | @assign i current assign =>
    rw [assign] at known
    have grows : current ≤ m.threadFinishStatus i := by
      unfold Steady at steady
      rw [assign] at steady
      exact steady
    rw [threads_goto_self]
    exact same.passed_of (inv.pass known.2 grows le_rfl)
  | lock lock =>
    rw [lock] at known
    rw [threads_goto_self]
    exact same.mined known
  | release critical less =>
    rw [threads_goto_self]
    exact trivial
  | keep critical =>
    rw [threads_goto_self]
    exact trivial
  | unlock unlock =>
    rw [threads_goto_self]
    exact trivial

/-- A step keeps the invariant. -/
theorem Inv.step (inv : m.Inv workingthread) (inside : thread < workingthread)
    (steady : m.Steady thread) (moves : Moves workingthread thread m m') :
    m'.Inv workingthread := by
  refine ⟨?_, ?_, ?_, ?_⟩
  · intro other
    cases moves with
    | @publish sequence mining =>
      show m.next ≤ Function.update m.threadFinishStatus thread sequence other
      by_cases mine : other = thread
      · rw [mine, Function.update_self]
        exact (inv.took thread sequence mining).1
      · rw [Function.update_of_ne mine]
        exact inv.published other
    | take => exact (Nat.sub_le _ _).trans (inv.published other)
    | _ => exact inv.published other
  · intro other sequence mining
    by_cases mine : other = thread
    · subst mine
      cases moves with
      | take idle left =>
        obtain rfl := Mining.mining.inj ((Function.update_self other _ m.threads).symm.trans mining)
        have handed := inv.published other
        show m.next - 1 ≤ m.next - 1 ∧ m.next - 1 < m.threadFinishStatus other
        omega
      | _ => cases (Function.update_self other _ m.threads).symm.trans mining
    · obtain ⟨handed, falls⟩ := inv.took other sequence ((moves.others mine).symm.trans mining)
      refine ⟨moves.next_le.trans handed, ?_⟩
      cases moves with
      | @publish published mining =>
        show sequence < Function.update m.threadFinishStatus thread published other
        rw [Function.update_of_ne mine]
        exact falls
      | _ => exact falls
  · intro other within
    by_cases mine : other = thread
    · rw [mine]
      exact inv.own inside steady moves
    · rw [moves.others mine]
      exact moves.known (inv.known other within)
  · have old : ∀ sequence ∈ m.freed, m'.Mined workingthread sequence := fun sequence member =>
      moves.mined (inv.freed sequence member)
    have same := moves
    cases moves with
    | @release current critical less =>
      intro sequence member
      rcases List.mem_append.mp member with before | now
      · exact old sequence before
      · have known := inv.known thread inside
        rw [critical] at known
        obtain ⟨handed, below⟩ := same.mined known
        have above := (List.mem_range'_1.mp now).1
        exact ⟨handed.trans above, fun other within => (below other within).mono above⟩
    | _ => exact old

/-- A step that meets a test. -/
def testedStep (workingthread : Nat) (test : Nat → Miners → Bool) (thread : Nat) (m : Miners) :
    Option Miners :=
  if thread < workingthread ∧ test thread m = true then m.step workingthread thread else none

/-- The state after steps that meet a test. -/
def runs (workingthread : Nat) (test : Nat → Miners → Bool) (order : List Nat) (m : Miners) :
    Option Miners :=
  order.foldlM (fun m thread => m.testedStep workingthread test thread) m

/-- It is reached. -/
theorem reached_runs {condition : Nat → Miners → Prop} {test : Nat → Miners → Bool}
    (meets : ∀ thread m, test thread m = true → condition thread m) {order : List Nat}
    (runs : (start itemno).runs workingthread test order = some m) :
    Reached itemno workingthread condition m := by
  refine Reachable.actions (fun thread m next tested => ?_) (.start rfl) runs
  unfold testedStep at tested
  split at tested
  case isTrue allowed => exact ⟨thread, allowed.1, meets thread m allowed.2, tested⟩
  case isFalse => cases tested

end Miners

open Miners

/-- No array is freed twice and `released_pos` does not rise, whatever the order of the steps. In
every run in which no entry falls below `current` before it is assigned, no array of an item is
freed that is in progress or still to be handed out. -/
theorem release_safe (itemno workingthread : Nat) :
    (∀ m, Miners.Reached itemno workingthread (fun _ _ => True) m → m.freed.Nodup ∧
      ∀ thread < workingthread, ∀ next, m.step workingthread thread = some next →
        next.releasedPos ≤ m.releasedPos) ∧
    ∀ m, Miners.Reached itemno workingthread Steady m → ∀ sequence ∈ m.freed,
      m.next ≤ sequence ∧ ∀ thread < workingthread, m.threads thread ≠ .mining sequence := by
  have stacked : ∀ m, Miners.Reached itemno workingthread (fun _ _ => True) m → m.Stacked := by
    intro m reached
    refine reached.invariant ?_ ?_
    · rintro _ rfl
      exact stacked_start
    · rintro m next stacked ⟨thread, -, -, steps⟩
      exact (stacked.step (step_moves steps)).1
  have inv : ∀ m, Miners.Reached itemno workingthread Steady m → m.Inv workingthread := by
    intro m reached
    refine reached.invariant ?_ ?_
    · rintro _ rfl
      exact inv_start
    · rintro m next inv ⟨thread, inside, steady, steps⟩
      exact inv.step inside steady (step_moves steps)
  refine ⟨fun m reached => ⟨(stacked m reached).nodup, fun thread _ next steps =>
    ((stacked m reached).step (step_moves steps)).2⟩, fun m reached sequence member => ?_⟩
  obtain ⟨handed, below⟩ := (inv m reached).freed sequence member
  exact ⟨handed, fun thread inside mining => (below thread inside sequence mining).false⟩

/-- Threads 1 and 0 mine the items 3 and 2. Thread 1 goes on with the item 1, and thread 0 releases
the array of the item 3. -/
def inTurn : List Nat := [1, 0] ++ List.replicate 9 1 ++ List.replicate 8 0

/-- The array that is released is of no item in progress. -/
theorem release_safe_sample : ∃ m, Miners.Reached 4 2 Steady m ∧ m.freed = [3] ∧
    m.threads 1 = .mining 1 ∧ m.next ≤ 3 ∧ ∀ thread < 2, m.threads thread ≠ .mining 3 := by
  have run : ((start 4).runs 2 (fun thread m => m.Steady thread) inTurn).map (fun m =>
      (m.freed, m.threads 1)) = some ([3], .mining 1) := by decide +kernel
  obtain ⟨m, runs, same⟩ := Option.map_eq_some_iff.mp run
  obtain ⟨freed, mining⟩ := Prod.mk.inj same
  have reached : Miners.Reached 4 2 Steady m :=
    reached_runs (fun _ _ tested => of_decide_eq_true tested) runs
  have member : 3 ∈ m.freed := by rw [freed]; exact List.mem_cons_self
  exact ⟨m, reached, freed, mining, (release_safe 4 2).2 m reached 3 member⟩

/-- Threads 1 and 0 mine the items 6 and 5 and begin with 3 and 4. Thread 2 mines the item 2, and
thread 1 publishes the item 3 after its entry has been compared and before it is assigned. -/
def overtaking : List Nat :=
  [1, 0] ++ List.replicate 9 1 ++ List.replicate 11 0 ++ [0, 1, 2, 2, 2, 2, 2, 1, 2, 2, 2, 2, 2]

/-- The array of the item 4 is released, which thread 0 is mining. -/
theorem release_safe_fails : ∃ m, Miners.Reached 7 3 (fun _ _ => True) m ∧ 4 ∈ m.freed ∧
    m.threads 0 = .mining 4 := by
  have run : ((start 7).runs 3 (fun _ _ => true) overtaking).map (fun m =>
      (decide (4 ∈ m.freed), m.threads 0)) = some (true, .mining 4) := by decide +kernel
  obtain ⟨m, runs, same⟩ := Option.map_eq_some_iff.mp run
  obtain ⟨freed, mining⟩ := Prod.mk.inj same
  exact ⟨m, reached_runs (fun _ _ _ => trivial) runs, of_decide_eq_true freed, mining⟩

end P3arsec.Freqmine
