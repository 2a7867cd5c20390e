import P3arsec.Lib.Descent
import P3arsec.Lib.Linearize

/-!
# The barrier on which the workers of a parallel loop spin

`spinBarrier` has two counters, which its rounds use in turn. A thread adds one to the counter of
its round; the last one sets it to zero and the others read it until it is zero. A thread that is
fast uses the other counter, so a slow one still finds the zero.
-/

namespace P3arsec.Fastflow

open P3arsec.Lib P3arsec.Lib.Concurrent

/-- Where a thread is in `doBarrier`. -/
inductive BarrierThread where
  /-- Not in the barrier. -/
  | outside
  /-- About to add one to the counter. -/
  | counting
  /-- It was the last one, and is about to set the counter to zero. -/
  | resetting
  /-- Reading the counter. -/
  | spinning
  deriving DecidableEq

/-- How many steps a thread still has in the barrier. -/
def BarrierThread.steps : BarrierThread → Nat
  | .outside => 0
  | .counting => 2
  | .resetting | .spinning => 1

/-- `spinBarrier` and its threads. -/
structure SpinBarrier where
  /-- `_barrier`: the number of threads. -/
  barrier : Nat
  /-- The counter of the last round of a thread. -/
  barArray : Nat → Bool
  /-- The counters. -/
  B : Bool → Nat
  thread : Nat → BarrierThread

/-- A thread enters the barrier or leaves it. -/
inductive BarrierEvent where
  | enter (tid : Nat)
  | leave (tid : Nat)
  deriving DecidableEq

namespace SpinBarrier

/-- `barrierSetup` of a new barrier. (For the number of threads that it has it returns at once.) -/
def barrierSetup (init : Nat) : SpinBarrier where
  barrier := init
  barArray _ := false
  B _ := 0
  thread _ := .outside

/-- A step of `doBarrier`. To read another number than zero changes nothing and is left out. -/
inductive Step : SpinBarrier → Option BarrierEvent → SpinBarrier → Prop where
  /-- `barArray` is switched. -/
  | enter {b : SpinBarrier} {tid : Nat} (below : tid < b.barrier)
      (here : b.thread tid = .outside) :
      Step b (some (.enter tid)) { b with
        barArray := Function.update b.barArray tid (!b.barArray tid)
        thread := Function.update b.thread tid .counting }
  /-- The counter is raised and its new value compared with the number of threads. -/
  | count {b : SpinBarrier} {tid : Nat} (here : b.thread tid = .counting) :
      Step b none { b with
        B := Function.update b.B (b.barArray tid) (b.B (b.barArray tid) + 1)
        thread := Function.update b.thread tid
          (if b.B (b.barArray tid) + 1 = b.barrier then .resetting else .spinning) }
  /-- The last thread sets the counter to zero. -/
  | reset {b : SpinBarrier} {tid : Nat} (here : b.thread tid = .resetting) :
      Step b (some (.leave tid)) { b with
        B := Function.update b.B (b.barArray tid) 0
        thread := Function.update b.thread tid .outside }
  /-- A thread reads zero. -/
  | leave {b : SpinBarrier} {tid : Nat} (here : b.thread tid = .spinning)
      (zero : b.B (b.barArray tid) = 0) :
      Step b (some (.leave tid)) { b with thread := Function.update b.thread tid .outside }

/-- A step of a thread that is in the barrier. -/
def Inner (b b' : SpinBarrier) : Prop :=
  ∃ event, Step b event b' ∧ ∀ tid, event ≠ some (.enter tid)

/-- The counter of a round. -/
def parity (round : Nat) : Bool := round % 2 = 1

/-- The parity changes from round to round. -/
theorem parity_succ (round : Nat) : parity (round + 1) = !parity round := by
  unfold parity
  rcases Nat.mod_two_eq_zero_or_one round with even | odd
  · simp [Nat.add_mod, even]
  · simp [Nat.add_mod, odd]

/-- What a thread has done when `r` rounds are complete: how often it has entered and left. -/
def At (r : Nat) : BarrierThread → Nat → Nat → Prop
  | .outside, enters, leaves => enters = r ∧ leaves = r
  | .counting, enters, leaves | .resetting, enters, leaves => enters = r + 1 ∧ leaves = r
  | .spinning, enters, leaves =>
    enters = r + 1 ∧ leaves = r ∨ enters = r ∧ leaves + 1 = r

/-- How many steps the threads still have in the barrier. -/
def waiting (b : SpinBarrier) : Nat :=
  ∑ tid ∈ Finset.range b.barrier, (b.thread tid).steps

/-- The threads that the open round has counted. -/
def counted (b : SpinBarrier) (r : Nat) (enters : Nat → Nat) : Finset Nat :=
  (Finset.range b.barrier).filter fun tid =>
    b.thread tid ≠ .outside ∧ b.thread tid ≠ .counting ∧ enters tid = r + 1

/-- `r` rounds are complete and one is open. -/
structure Open (r : Nat) (enters leaves : Nat → Nat) (b : SpinBarrier) : Prop where
  threads : ∀ tid < b.barrier, At r (b.thread tid) (enters tid) (leaves tid)
  others : ∀ tid, b.barrier ≤ tid → b.thread tid = .outside
  /-- Every thread knows the counter of its round. -/
  sense : ∀ tid < b.barrier, b.barArray tid = parity (enters tid)
  count : b.B (parity (r + 1)) = (b.counted r enters).card
  zero : b.B (parity r) = 0
  /-- The last thread, and no other one, completes the round. -/
  last : b.B (parity (r + 1)) = b.barrier →
    0 < b.barrier → ∃ tid < b.barrier, b.thread tid = .resetting
  full : ∀ tid, b.thread tid = .resetting → b.B (parity (r + 1)) = b.barrier
  single : ∀ tid tid', b.thread tid = .resetting → b.thread tid' = .resetting → tid = tid'

namespace Open

variable {r : Nat} {enters leaves : Nat → Nat} {b : SpinBarrier} {tid : Nat}

/-- A thread in the barrier is one of its threads. -/
theorem inside (known : Open r enters leaves b) (here : b.thread tid ≠ .outside) :
    tid < b.barrier := by
  by_contra other
  exact here (known.others tid (by omega))

/-- A thread that does not reset the counter after its step is not one that does. -/
theorem resetting_of_update {thread : Nat → BarrierThread} {now : BarrierThread} {t : Nat}
    (here : Function.update thread tid now t = .resetting) (other : now ≠ .resetting) :
    t ≠ tid ∧ thread t = .resetting := by
  by_cases same : t = tid
  · subst same
    rw [Function.update_self] at here
    exact absurd here other
  · rw [Function.update_of_ne same] at here
    exact ⟨same, here⟩

/-- Who is not a thread of the barrier stays outside. -/
theorem others_update (known : Open r enters leaves b) (below : tid < b.barrier)
    (now : BarrierThread) (t : Nat) (above : b.barrier ≤ t) :
    Function.update b.thread tid now t = .outside := by
  have apart : t ≠ tid := by
    rintro rfl
    exact absurd below (Nat.not_lt.mpr above)
  rw [Function.update_of_ne apart]
  exact known.others t above

/-- The last thread stays where it is while another one moves. -/
theorem last_update (known : Open r enters leaves b) (here : b.thread tid ≠ .resetting)
    (now : BarrierThread) (all : b.B (parity (r + 1)) = b.barrier) (positive : 0 < b.barrier) :
    ∃ t < b.barrier, Function.update b.thread tid now t = .resetting := by
  obtain ⟨t, inside, last⟩ := known.last all positive
  have apart : t ≠ tid := by
    rintro rfl
    exact here last
  exact ⟨t, inside, by rw [Function.update_of_ne apart]; exact last⟩

/-- Before the first round nobody has come. -/
theorem barrierSetup (N : Nat) :
    Open 0 (fun _ => 0) (fun _ => 0) (SpinBarrier.barrierSetup N) where
  threads _ _ := ⟨rfl, rfl⟩
  others _ _ := rfl
  sense _ _ := by simp [SpinBarrier.barrierSetup, parity]
  count := by simp [SpinBarrier.barrierSetup, counted]
  zero := rfl
  last none positive := absurd none positive.ne
  full _ now := by cases now
  single _ _ now _ := by cases now

/-- A thread enters the open round. -/
theorem enter (known : Open r enters leaves b) (below : tid < b.barrier)
    (here : b.thread tid = .outside) :
    Open r (Function.update enters tid (enters tid + 1)) leaves { b with
      barArray := Function.update b.barArray tid (!b.barArray tid)
      thread := Function.update b.thread tid .counting } := by
  have at_tid := known.threads tid below
  rw [here] at at_tid
  have resetting : ∀ t, Function.update b.thread tid .counting t = .resetting →
      b.thread t = .resetting := fun t now => (resetting_of_update now nofun).2
  refine {
    threads := fun t inside => ?_
    others := known.others_update below _
    sense := fun t inside => ?_
    count := ?_
    zero := known.zero
    last := known.last_update (by simp [here]) _
    full := fun t now => known.full t (resetting t now)
    single := fun t t' now now' => known.single t t' (resetting t now) (resetting t' now') }
  · by_cases same : t = tid
    · subst same
      simp only [Function.update_self]
      exact ⟨by rw [at_tid.1], at_tid.2⟩
    · simp only [Function.update_of_ne same]
      exact known.threads t inside
  · by_cases same : t = tid
    · subst same
      simp only [Function.update_self]
      rw [known.sense t below, parity_succ]
    · simp only [Function.update_of_ne same]
      exact known.sense t inside
  · refine known.count.trans (congrArg Finset.card ?_)
    ext t
    simp only [counted, Finset.mem_filter, Finset.mem_range]
    by_cases same : t = tid
    · subst same
      simp [here]
    · simp only [Function.update_of_ne same]

/-- Where the counter of the open round has reached the number of threads, all are counted. -/
theorem counted_all (known : Open r enters leaves b)
    (all : b.B (parity (r + 1)) = b.barrier) (below : tid < b.barrier) :
    b.thread tid ≠ .outside ∧ b.thread tid ≠ .counting ∧ enters tid = r + 1 := by
  have subset : b.counted r enters ⊆ Finset.range b.barrier := Finset.filter_subset _ _
  have same := Finset.eq_of_subset_of_card_le subset (by
    rw [Finset.card_range, ← known.count, all])
  have member : tid ∈ b.counted r enters := by
    rw [same]
    exact Finset.mem_range.mpr below
  exact (Finset.mem_filter.mp member).2

/-- A thread raises the counter. -/
theorem count_one (known : Open r enters leaves b) (here : b.thread tid = .counting) :
    Open r enters leaves { b with
      B := Function.update b.B (b.barArray tid) (b.B (b.barArray tid) + 1)
      thread := Function.update b.thread tid
        (if b.B (b.barArray tid) + 1 = b.barrier then .resetting else .spinning) } := by
  have below : tid < b.barrier := known.inside (by simp [here])
  have at_tid := known.threads tid below
  rw [here] at at_tid
  -- A thread that has not counted is missing, so none is the last one.
  have nobody : ∀ t, b.thread t ≠ .resetting := fun t now =>
    (known.counted_all (known.full t now) below).2.1 here
  have own : b.barArray tid = parity (r + 1) := by rw [known.sense tid below, at_tid.1]
  rw [own]
  have apart : parity r ≠ parity (r + 1) := by simp [parity_succ]
  have only : ∀ t, Function.update b.thread tid
      (if b.B (parity (r + 1)) + 1 = b.barrier then .resetting else .spinning) t = .resetting →
      t = tid ∧ b.B (parity (r + 1)) + 1 = b.barrier := fun t now => by
    by_cases same : t = tid
    · subst same
      rw [Function.update_self] at now
      refine ⟨rfl, ?_⟩
      by_contra missing
      rw [if_neg missing] at now
      cases now
    · rw [Function.update_of_ne same] at now
      exact absurd now (nobody t)
  refine {
    threads := fun t inside => ?_
    others := known.others_update below _
    sense := known.sense
    count := ?_
    zero := by simp only [Function.update_of_ne apart]; exact known.zero
    last := fun all _ => ?_
    full := fun t now => by simp only [Function.update_self]; exact (only t now).2
    single := fun t t' now now' => (only t now).1.trans (only t' now').1.symm }
  · by_cases same : t = tid
    · subst same
      simp only [Function.update_self]
      split_ifs
      · exact at_tid
      · exact Or.inl at_tid
    · simp only [Function.update_of_ne same]
      exact known.threads t inside
  · have fresh : tid ∉ b.counted r enters := fun member =>
      (Finset.mem_filter.mp member).2.2.1 here
    have more := (congrArg (· + 1) known.count).trans (Finset.card_insert_of_notMem fresh).symm
    simp only [Function.update_self]
    refine more.trans (congrArg Finset.card ?_)
    ext t
    simp only [counted, Finset.mem_insert, Finset.mem_filter, Finset.mem_range]
    by_cases same : t = tid
    · subst same
      simp only [Function.update_self, true_or, true_iff]
      refine ⟨below, ?_, ?_, at_tid.1⟩ <;> split_ifs <;> simp
    · simp only [Function.update_of_ne same, same, false_or]
  · simp only [Function.update_self] at all
    exact ⟨tid, below, by simp only [Function.update_self]; rw [if_pos all]⟩

/-- The last thread completes the round. -/
theorem reset (known : Open r enters leaves b) (here : b.thread tid = .resetting) :
    Open (r + 1) enters (Function.update leaves tid (leaves tid + 1)) { b with
      B := Function.update b.B (b.barArray tid) 0
      thread := Function.update b.thread tid .outside } := by
  have below : tid < b.barrier := known.inside (by simp [here])
  have at_tid := known.threads tid below
  rw [here] at at_tid
  have all := known.full tid here
  have own : b.barArray tid = parity (r + 1) := by rw [known.sense tid below, at_tid.1]
  rw [own]
  have apart : parity r ≠ parity (r + 1) := by simp [parity_succ]
  have back : parity (r + 1 + 1) = parity r := by simp [parity_succ]
  have nobody : ∀ t, Function.update b.thread tid .outside t ≠ .resetting := fun t now =>
    (resetting_of_update now nofun).1 (known.single t tid (resetting_of_update now nofun).2 here)
  have empty : Function.update b.B (parity (r + 1)) 0 (parity (r + 1 + 1)) = 0 := by
    rw [back, Function.update_of_ne apart]
    exact known.zero
  refine {
    threads := fun t inside => ?_
    others := known.others_update below _
    sense := known.sense
    count := empty.trans ?_
    zero := Function.update_self ..
    last := fun none positive => ?_
    full := fun t now => absurd now (nobody t)
    single := fun t _ now _ => absurd now (nobody t) }
  · by_cases same : t = tid
    · subst same
      simp only [Function.update_self]
      exact ⟨at_tid.1, by rw [at_tid.2]⟩
    · simp only [Function.update_of_ne same]
      obtain ⟨in_it, counted, entered⟩ := known.counted_all all inside
      have at_t := known.threads t inside
      -- Whoever was waiting for this round now reads zero.
      cases now : b.thread t with
      | outside => exact absurd now in_it
      | counting => exact absurd now counted
      | resetting => exact absurd (known.single t tid now here) same
      | spinning =>
        rw [now] at at_t
        rcases at_t with ⟨_, left⟩ | ⟨earlier, _⟩
        · exact Or.inr ⟨entered, by rw [left]⟩
        · omega
  · symm
    rw [Finset.card_eq_zero]
    refine Finset.filter_eq_empty_iff.mpr fun t inside now => ?_
    have entered := (known.counted_all all (Finset.mem_range.mp inside)).2.2
    omega
  · exact absurd (empty.symm.trans none) positive.ne

/-- A thread that reads zero leaves a complete round. -/
theorem leave (known : Open r enters leaves b) (here : b.thread tid = .spinning)
    (zero : b.B (b.barArray tid) = 0) :
    Open r enters (Function.update leaves tid (leaves tid + 1)) { b with
      thread := Function.update b.thread tid .outside } := by
  have below : tid < b.barrier := known.inside (by simp [here])
  have at_tid := known.threads tid below
  rw [here] at at_tid
  have old : enters tid = r ∧ leaves tid + 1 = r := by
    rcases at_tid with ⟨entered, _⟩ | old
    · -- It is counted by the open round, whose counter is not zero.
      have member : tid ∈ b.counted r enters :=
        Finset.mem_filter.mpr ⟨Finset.mem_range.mpr below, by simp [here], by simp [here], entered⟩
      have positive := Finset.card_pos.mpr ⟨tid, member⟩
      rw [known.sense tid below, entered, known.count] at zero
      omega
    · exact old
  have resetting : ∀ t, Function.update b.thread tid .outside t = .resetting →
      b.thread t = .resetting := fun t now => (resetting_of_update now nofun).2
  refine {
    threads := fun t inside => ?_
    others := known.others_update below _
    sense := known.sense
    count := known.count.trans (congrArg Finset.card ?_)
    zero := known.zero
    last := known.last_update (by simp [here]) _
    full := fun t now => known.full t (resetting t now)
    single := fun t t' now now' => known.single t t' (resetting t now) (resetting t' now') }
  · by_cases same : t = tid
    · subst same
      simp only [Function.update_self]
      exact old
    · simp only [Function.update_of_ne same]
      exact known.threads t inside
  · ext t
    simp only [counted, Finset.mem_filter, Finset.mem_range]
    by_cases same : t = tid
    · subst same
      simp only [Function.update_self]
      simp [old.1]
    · simp only [Function.update_of_ne same]

/-- A thread has entered all complete rounds and has left no other one. -/
theorem entered_left (known : Open r enters leaves b) (below : tid < b.barrier) :
    r ≤ enters tid ∧ leaves tid ≤ r := by
  have at_tid := known.threads tid below
  cases now : b.thread tid <;> rw [now] at at_tid <;> simp only [At] at at_tid <;> omega

/-- Where all threads have entered equally often and one has not left, one of them can go on. -/
theorem progress (known : Open r enters leaves b)
    (equal : ∀ i < b.barrier, ∀ j < b.barrier, enters i = enters j)
    (waits : ∃ tid < b.barrier, b.thread tid ≠ .outside) :
    ∃ b', Inner b b' := by
  by_cases counting : ∃ tid < b.barrier, b.thread tid = .counting
  · obtain ⟨tid, _, here⟩ := counting
    exact ⟨_, none, .count here, nofun⟩
  by_cases resetting : ∃ tid < b.barrier, b.thread tid = .resetting
  · obtain ⟨tid, _, here⟩ := resetting
    exact ⟨_, some (.leave tid), .reset here, nofun⟩
  push Not at counting resetting
  obtain ⟨tid, below, in_it⟩ := waits
  have here : b.thread tid = .spinning := by
    cases now : b.thread tid with
    | outside => exact absurd now in_it
    | counting => exact absurd now (counting tid below)
    | resetting => exact absurd now (resetting tid below)
    | spinning => rfl
  have at_tid := known.threads tid below
  rw [here] at at_tid
  rcases at_tid with ⟨entered, _⟩ | ⟨entered, _⟩
  · -- All have entered this round, and have counted, so one of them is the last one.
    have everyone : b.counted r enters = Finset.range b.barrier := by
      refine Finset.filter_true_of_mem fun t inside => ?_
      have inside := Finset.mem_range.mp inside
      have entered_t := (equal t inside tid below).trans entered
      refine ⟨fun now => ?_, counting t inside, entered_t⟩
      have at_t := known.threads t inside
      rw [now] at at_t
      have := at_t.1
      omega
    have all : b.B (parity (r + 1)) = b.barrier := by
      rw [known.count, everyone, Finset.card_range]
    obtain ⟨t, inside, now⟩ := known.last all (by omega)
    exact absurd now (resetting t inside)
  · refine ⟨_, some (.leave tid), .leave here ?_, nofun⟩
    rw [known.sense tid below, entered]
    exact known.zero

/-- A step in the barrier brings a thread closer to its end. -/
theorem inner {b' : SpinBarrier} (known : Open r enters leaves b) (moves : Inner b b') :
    (∃ r enters leaves, Open r enters leaves b') ∧ b'.waiting < b.waiting := by
  obtain ⟨event, moves, no_entry⟩ := moves
  cases moves with
  | enter below here => exact absurd rfl (no_entry _)
  | count here =>
    refine ⟨⟨_, _, _, known.count_one here⟩,
      sum_update_lt BarrierThread.steps (known.inside (by simp [here])) ?_⟩
    rw [here]
    split_ifs <;> decide
  | reset here =>
    refine ⟨⟨_, _, _, known.reset here⟩,
      sum_update_lt BarrierThread.steps (known.inside (by simp [here])) ?_⟩
    rw [here]
    decide
  | leave here zero =>
    refine ⟨⟨_, _, _, known.leave here zero⟩,
      sum_update_lt BarrierThread.steps (known.inside (by simp [here])) ?_⟩
    rw [here]
    decide

end Open

/-- How often the history shows an event, after one more event. -/
theorem count_append {ε : Type*} [DecidableEq ε] {make : Nat → ε}
    (distinct : Function.Injective make) (history : List ε) (tid : Nat) :
    (fun i => (history ++ [make tid]).count (make i)) =
      Function.update (fun i => history.count (make i)) tid (history.count (make tid) + 1) := by
  funext i
  by_cases same : i = tid
  · subst same
    simp
  · have apart : make tid ≠ make i := fun equal => same (distinct equal).symm
    rw [Function.update_of_ne same, List.count_append, List.count_singleton]
    simp [apart]

/-- Who enters does not leave. -/
theorem leaves_enter (history : List BarrierEvent) (tid : Nat) :
    (fun i => (history ++ [BarrierEvent.enter tid]).count (BarrierEvent.leave i)) =
      fun i => history.count (.leave i) := by
  funext i
  simp [List.count_append]

/-- Who leaves does not enter. -/
theorem enters_leave (history : List BarrierEvent) (tid : Nat) :
    (fun i => (history ++ [BarrierEvent.leave tid]).count (BarrierEvent.enter i)) =
      fun i => history.count (.enter i) := by
  funext i
  simp [List.count_append]

/-- The events of different threads are different. -/
theorem enter_injective : Function.Injective BarrierEvent.enter := fun _ _ same => by
  cases same
  rfl

/-- So are those at the end. -/
theorem leave_injective : Function.Injective BarrierEvent.leave := fun _ _ same => by
  cases same
  rfl

/-- In every run one round is open. -/
theorem run {N : Nat} {history : List BarrierEvent} {b : SpinBarrier}
    (moves : History Step (barrierSetup N) history b) :
    b.barrier = N ∧ ∃ r, Open r (fun i => history.count (.enter i))
      (fun i => history.count (.leave i)) b := by
  induction moves with
  | start => exact ⟨rfl, 0, Open.barrierSetup N⟩
  | step _ moves ih =>
    obtain ⟨setup, r, known⟩ := ih
    cases moves with
    | enter below here =>
      refine ⟨setup, r, ?_⟩
      simp only [Option.toList_some]
      rw [count_append enter_injective, leaves_enter]
      exact known.enter below here
    | count here =>
      refine ⟨setup, r, ?_⟩
      simp only [Option.toList_none, List.append_nil]
      exact known.count_one here
    | reset here =>
      refine ⟨setup, r + 1, ?_⟩
      simp only [Option.toList_some]
      rw [count_append leave_injective, enters_leave]
      exact known.reset here
    | leave here zero =>
      refine ⟨setup, r, ?_⟩
      simp only [Option.toList_some]
      rw [count_append leave_injective, enters_leave]
      exact known.leave here zero

/-- No thread leaves a round of the barrier that another one has not entered, and threads that have
entered equally often all get out: one of them can go on as long as they are in, and not forever. -/
theorem spinBarrier_correct {N : Nat} {history : List BarrierEvent} {b : SpinBarrier}
    (moves : History Step (barrierSetup N) history b) :
    (∀ i < N, ∀ j < N, history.count (.leave i) ≤ history.count (.enter j)) ∧
      ((∀ i < N, ∀ j < N, history.count (.enter i) = history.count (.enter j)) →
        (∃ i < N, b.thread i ≠ .outside) →
          ∃ b', Inner b b') ∧
      ¬∃ states : Nat → SpinBarrier, states 0 = b ∧ ∀ n, Inner (states n) (states (n + 1)) := by
  obtain ⟨rfl, r, known⟩ := run moves
  refine ⟨fun i inside j inside' => ?_, known.progress, no_infinite_descent
    (fun b => ∃ r enters leaves, Open r enters leaves b) waiting
    (fun b b' known moves => ?_) ⟨r, _, _, known⟩⟩
  · exact (known.entered_left inside).2.trans (known.entered_left inside').1
  · obtain ⟨r, enters, leaves, known⟩ := known
    exact known.inner moves

/-- Two threads meet: the second one completes the round, and the first one leaves after it. -/
theorem spinBarrier_correct_two : ∃ history b, History Step (barrierSetup 2) history b ∧
    history = [.enter 0, .enter 1, .leave 1, .leave 0] ∧
      ∀ i < 2, ∀ j < 2, history.count (.leave i) ≤ history.count (.enter j) := by
  have moves := History.step (History.step (History.step (History.step (History.step (History.step
    (@History.start _ _ Step (barrierSetup 2))
    (@Step.enter _ 0 (by decide) rfl)) (@Step.count _ 0 rfl))
    (@Step.enter _ 1 (by decide) rfl)) (@Step.count _ 1 rfl))
    (@Step.reset _ 1 rfl)) (@Step.leave _ 0 rfl rfl)
  exact ⟨_, _, moves, rfl, (spinBarrier_correct moves).1⟩

end SpinBarrier

end P3arsec.Fastflow
