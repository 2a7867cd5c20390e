import P3arsec.Fastflow.ParallelForEmitter
import P3arsec.Fastflow.ParallelForSteps
import P3arsec.Lib.Descent

/-!
# The scheduler thread loses no task

`totaltasks` is the number of tasks that are in a part, in a channel or with a worker. A worker to
which no end-of-stream was sent has a task or has given one back, and one is sent only when no part
has a task left, so the emitter returns when everything is run, and it cannot be stuck before.
-/

namespace P3arsec.Fastflow

open P3arsec.Lib P3arsec.Lib.Concurrent

namespace Message

/-- The indices of a message. -/
def idxs (step : Int) : Message → Multiset Int
  | .task start stop => (indices step start stop : List Int)
  | .eos => 0

/-- The number of tasks in a message. -/
def tasks : Message → Int
  | .task _ _ => 1
  | .eos => 0

/-- A task is no end of the stream. -/
def isTask : Message → Bool
  | .task _ _ => true
  | .eos => false

end Message

namespace Emitter

/-- The number of tasks that a worker has not run or that have not come back. -/
def flight (e : Emitter) (wid : Nat) : Int := ((e.queue wid).map Message.tasks).sum + e.back wid

/-- The emitter when it has taken back a task of a worker and sent it the next one of a part. -/
def sent (e : Emitter) (wid n id : Nat) (maxid : Int) : Emitter :=
  { e with
    sched := { e.sched with
      totaltasks := e.sched.totaltasks - 1
      maxid
      data := Function.update e.sched.data id
        ⟨(e.sched.data id).ntask - 1, (e.sched.next (e.sched.data id)).2, (e.sched.data id).stop⟩ }
    queue := Function.update e.queue wid (e.queue wid ++
      [.task (e.sched.data id).start (e.sched.next (e.sched.data id)).1])
    back := Function.update e.back wid n }

/-- The emitter when it has taken back a task of a worker and there was none left. -/
def closed (e : Emitter) (wid n : Nat) (more : List Message) (maxid : Int) (ended : Bool) :
    Emitter where
  sched := { e.sched with totaltasks := e.sched.totaltasks - 1, maxid }
  eossent := Function.update e.eossent wid true
  ended := ended
  queue := Function.update e.queue wid (e.queue wid ++ more)
  back := Function.update e.back wid n
  stopped := e.stopped

/-- The end of the stream, as long as a worker has not taken it. -/
def eosLeft (e : Emitter) (wid : Nat) : List Message :=
  if e.eossent wid = true ∧ e.stopped wid = false then [.eos] else []

/-- What is left to do. A task that has not come back counts twice, and once more in a channel: when
one comes back the next one goes into a channel. -/
def todo (e : Emitter) : Int :=
  2 * e.sched.totaltasks + ∑ wid ∈ Finset.range e.sched.nw, ((e.queue wid).map Message.tasks).sum +
    ∑ wid ∈ Finset.range e.sched.nw, ((!e.stopped wid).toNat : Int)

end Emitter

/-- Every index and every task is in one place. `run` are the indices that the workers have run. -/
structure Handed (whole run : Multiset Int) (e : Emitter) : Prop where
  step_pos : 0 < e.sched.step
  chunk_pos : 0 < e.sched.chunk
  size : e.sched.nw ≤ e.sched.size
  places : run +
    ∑ wid ∈ Finset.range e.sched.nw, ((e.queue wid).map (Message.idxs e.sched.step)).sum +
      ∑ id ∈ Finset.range e.sched.nw, ((e.sched.data id).left e.sched.step : Multiset Int) = whole
  enough : ∀ id < e.sched.nw,
    (((e.sched.data id).left e.sched.step).length : Int) ≤ e.sched.chunk * (e.sched.data id).ntask
  beyond : ∀ id, e.sched.nw ≤ id → (e.sched.data id).ntask ≤ 0
  /-- `totaltasks` counts the tasks that have not come back. -/
  count : ∑ id ∈ Finset.range e.sched.nw, (e.sched.data id).ntask +
    ∑ wid ∈ Finset.range e.sched.nw, e.flight wid = e.sched.totaltasks
  ended : e.ended = true → e.sched.totaltasks = 0
  going : e.ended = false → 0 < e.sched.totaltasks
  /-- The other workers are not started. -/
  others : ∀ wid, e.sched.nw ≤ wid → e.queue wid = [] ∧ e.back wid = 0
  /-- The end of the stream is behind the tasks. -/
  queues : ∀ wid < e.sched.nw, ∃ tasks : List Message,
    (∀ message ∈ tasks, message.isTask = true) ∧ e.queue wid = tasks ++ e.eosLeft wid
  stopped : ∀ wid < e.sched.nw, e.stopped wid = true → e.eossent wid = true ∧ e.queue wid = []
  /-- A worker without an end of the stream has a task. -/
  working : ∀ wid < e.sched.nw, e.eossent wid = false → 0 < e.flight wid
  /-- It was sent when no part had a task. -/
  closed : ∀ wid < e.sched.nw, e.eossent wid = true → ∀ id, (e.sched.data id).ntask ≤ 0

namespace Handed

variable {whole run : Multiset Int} {e : Emitter} {wid id n : Nat}
variable {rest : List Message}

/-- A part has no less than zero tasks. -/
theorem ntask_nonneg (handed : Handed whole run e) (inside : id < e.sched.nw) :
    0 ≤ (e.sched.data id).ntask := by
  have enough := handed.enough id inside
  have chunk_pos := handed.chunk_pos
  by_contra negative
  have := mul_neg_of_pos_of_neg chunk_pos (not_le.mp negative)
  omega

/-- A channel has no less than zero tasks. -/
theorem tasks_nonneg (queue : List Message) : 0 ≤ (queue.map Message.tasks).sum := by
  refine List.sum_nonneg fun x inside => ?_
  obtain ⟨message, -, rfl⟩ := List.mem_map.mp inside
  cases message <;> simp [Message.tasks]

/-- A worker has no less than zero tasks. -/
theorem flight_nonneg (e : Emitter) (wid : Nat) : 0 ≤ e.flight wid := by
  have := tasks_nonneg (e.queue wid)
  unfold Emitter.flight
  omega

/-- A worker with a message is started. -/
theorem queue_started (handed : Handed whole run e) (some_left : e.queue wid ≠ []) :
    wid < e.sched.nw := by
  by_contra other
  exact some_left (handed.others wid (by omega)).1

/-- A worker runs a task. -/
theorem work {start stop : Int} (handed : Handed whole run e) (running : e.stopped wid = false)
    (first : e.queue wid = .task start stop :: rest) :
    Handed whole (run + indices e.sched.step start stop)
      { e with
        queue := Function.update e.queue wid rest
        back := Function.update e.back wid (e.back wid + 1) } := by
  have inside := handed.queue_started (by rw [first]; simp)
  have flights : ∀ w, Emitter.flight { e with
      queue := Function.update e.queue wid rest
      back := Function.update e.back wid (e.back wid + 1) } w = e.flight w := fun w => by
    unfold Emitter.flight
    dsimp only
    by_cases same : w = wid
    · subst same
      rw [Function.update_self, Function.update_self, first, List.map_cons, List.sum_cons]
      simp only [Message.tasks]
      push_cast
      ring
    · rw [Function.update_of_ne same, Function.update_of_ne same]
  refine { handed with
    places := ?_
    count := ?_
    others := fun w above => ?_
    queues := fun w below => ?_
    stopped := fun w below stopped => ?_
    working := fun w below unsent => ?_ }
  · obtain ⟨others, before, behind⟩ := exists_sum_update
      (fun queue : List Message => (queue.map (Message.idxs e.sched.step)).sum) e.queue inside
    have places := handed.places
    rw [before, first, List.map_cons, List.sum_cons] at places
    dsimp only
    rw [behind, ← places]
    simp only [Message.idxs]
    abel
  · rw [Finset.sum_congr rfl fun w _ => flights w]
    exact handed.count
  · have apart : w ≠ wid := by
      rintro rfl
      exact absurd inside (by simpa using above)
    dsimp only
    rw [Function.update_of_ne apart, Function.update_of_ne apart]
    exact handed.others w above
  · obtain ⟨tasks, each, eq⟩ := handed.queues w below
    by_cases same : w = wid
    · subst same
      cases tasks with
      | nil =>
        rw [first, List.nil_append, Emitter.eosLeft] at eq
        split_ifs at eq
        cases eq
      | cons task tasks =>
        rw [first, List.cons_append, List.cons.injEq] at eq
        refine ⟨tasks, fun message later => each message (List.mem_cons_of_mem _ later), ?_⟩
        dsimp only
        rw [Function.update_self]
        exact eq.2
    · refine ⟨tasks, each, ?_⟩
      dsimp only
      rw [Function.update_of_ne same]
      exact eq
  · obtain ⟨sent, empty⟩ := handed.stopped w below stopped
    refine ⟨sent, ?_⟩
    dsimp only
    have apart : w ≠ wid := by
      rintro rfl
      rw [running] at stopped
      cases stopped
    rw [Function.update_of_ne apart]
    exact empty
  · rw [flights w]
    exact handed.working w below unsent

/-- A worker takes the end of the stream, and nothing is left in its channel. -/
theorem stop (handed : Handed whole run e) (running : e.stopped wid = false)
    (first : e.queue wid = .eos :: rest) :
    Handed whole run
      { e with
        queue := Function.update e.queue wid rest
        stopped := Function.update e.stopped wid true } := by
  have inside := handed.queue_started (by rw [first]; simp)
  obtain ⟨tasks, each, eq⟩ := handed.queues wid inside
  -- the end of the stream is the last message
  have last : e.eossent wid = true ∧ rest = [] := by
    cases tasks with
    | nil =>
      rw [first, List.nil_append, Emitter.eosLeft] at eq
      split_ifs at eq with sent
      exact ⟨sent.1, (List.cons.inj eq).2⟩
    | cons task tasks =>
      rw [first, List.cons_append, List.cons.injEq] at eq
      have is_task := each task (List.mem_cons_self ..)
      rw [← eq.1] at is_task
      cases is_task
  obtain ⟨sent, rfl⟩ := last
  have flights : ∀ w, Emitter.flight { e with
      queue := Function.update e.queue wid []
      stopped := Function.update e.stopped wid true } w = e.flight w := fun w => by
    unfold Emitter.flight
    dsimp only
    by_cases same : w = wid
    · subst same
      rw [Function.update_self, first]
      simp [Message.tasks]
    · rw [Function.update_of_ne same]
  refine { handed with
    places := ?_
    count := ?_
    others := fun w above => ?_
    queues := fun w below => ?_
    stopped := fun w below stopped => ?_
    working := fun w below unsent => ?_ }
  · obtain ⟨others, before, behind⟩ := exists_sum_update
      (fun queue : List Message => (queue.map (Message.idxs e.sched.step)).sum) e.queue inside
    have places := handed.places
    rw [before, first] at places
    dsimp only
    rw [behind, ← places]
    simp [Message.idxs]
  · rw [Finset.sum_congr rfl fun w _ => flights w]
    exact handed.count
  · have apart : w ≠ wid := by
      rintro rfl
      exact absurd inside (by simpa using above)
    dsimp only
    rw [Function.update_of_ne apart]
    exact handed.others w above
  · by_cases same : w = wid
    · subst same
      refine ⟨[], by simp, ?_⟩
      simp [Emitter.eosLeft]
    · obtain ⟨tasks, each, eq⟩ := handed.queues w below
      refine ⟨tasks, each, ?_⟩
      unfold Emitter.eosLeft at eq ⊢
      simp only [Function.update_of_ne same]
      exact eq
  · by_cases same : w = wid
    · subst same
      dsimp only
      rw [Function.update_self]
      exact ⟨sent, rfl⟩
    · dsimp only at stopped ⊢
      rw [Function.update_of_ne same] at stopped ⊢
      exact handed.stopped w below stopped
  · rw [flights w]
    exact handed.working w below unsent

/-- The flight of a worker of which a task came back and to which messages are sent. -/
theorem flight_sent (e : Emitter) (more : List Message) (some_back : e.back wid = n + 1) (w : Nat) :
    (((Function.update e.queue wid (e.queue wid ++ more)) w).map Message.tasks).sum +
        ((Function.update e.back wid n) w : Nat) =
      e.flight w + if w = wid then (more.map Message.tasks).sum - 1 else 0 := by
  unfold Emitter.flight
  by_cases same : w = wid
  · subst same
    rw [Function.update_self, Function.update_self, if_pos rfl, some_back, List.map_append,
      List.sum_append]
    push_cast
    ring
  · rw [Function.update_of_ne same, Function.update_of_ne same, if_neg same, add_zero]

/-- The flights together. -/
theorem flights_sent (e : Emitter) (more : List Message) (inside : wid < e.sched.nw)
    (some_back : e.back wid = n + 1) :
    ∑ w ∈ Finset.range e.sched.nw,
        ((((Function.update e.queue wid (e.queue wid ++ more)) w).map Message.tasks).sum +
          ((Function.update e.back wid n) w : Nat)) =
      ∑ w ∈ Finset.range e.sched.nw, e.flight w + (more.map Message.tasks).sum - 1 := by
  rw [Finset.sum_congr rfl fun w _ => flight_sent e more some_back w, Finset.sum_add_distrib,
    Finset.sum_ite_eq', if_pos (Finset.mem_range.mpr inside)]
  ring

/-- A task came back, and the worker gets another one. -/
theorem send (handed : Handed whole run e) (inside : wid < e.sched.nw) (running : e.ended = false)
    (some_back : e.back wid = n + 1) (unsent : e.eossent wid = false) (id_lt : id < e.sched.nw)
    (some_left : 0 < (e.sched.data id).ntask) (more : 1 < e.sched.totaltasks) (maxid : Int) :
    Handed whole run (e.sent wid n id maxid) := by
  have step_pos := handed.step_pos
  have chunk_pos := handed.chunk_pos
  have split : (e.sched.data id).left e.sched.step =
      indices e.sched.step (e.sched.data id).start (e.sched.next (e.sched.data id)).1 ++
        indices e.sched.step (e.sched.next (e.sched.data id)).2 (e.sched.data id).stop :=
    indices_split _ _ step_pos chunk_pos
  refine {
    step_pos := step_pos
    chunk_pos := chunk_pos
    size := handed.size
    places := ?_
    enough := fun other below => ?_
    beyond := fun other above => ?_
    count := ?_
    ended := fun ended => absurd (running.symm.trans ended) (by decide)
    going := fun _ => by
      show 0 < e.sched.totaltasks - 1
      omega
    others := fun w above => ?_
    queues := fun w below => ?_
    stopped := fun w below stopped => ?_
    working := fun w below unsent => ?_
    closed := fun w below sent => absurd (handed.closed w below sent id) (by omega) }
  · obtain ⟨others, before, behind⟩ := exists_sum_update
      (fun queue : List Message => (queue.map (Message.idxs e.sched.step)).sum) e.queue inside
    obtain ⟨others', before', behind'⟩ := exists_sum_update
      (fun d : Part => (d.left e.sched.step : Multiset Int)) e.sched.data id_lt
    have places := handed.places
    rw [before, before', split, ← Multiset.coe_add] at places
    simp only [Emitter.sent]
    rw [behind, behind', ← places, List.map_append, List.sum_append]
    simp only [List.map_cons, List.map_nil, List.sum_cons, List.sum_nil, add_zero, Message.idxs,
      Part.left]
    abel
  · have enough := handed.enough other below
    by_cases eq : other = id
    · subst eq
      show ((((Function.update e.sched.data other _) other).left e.sched.step).length : Int) ≤
        e.sched.chunk * ((Function.update e.sched.data other _) other).ntask
      rw [Function.update_self]
      show ((indices e.sched.step _ _).length : Int) ≤
        e.sched.chunk * ((e.sched.data other).ntask - 1)
      by_cases none_left : indices e.sched.step (e.sched.next (e.sched.data other)).2
          (e.sched.data other).stop = []
      · rw [none_left]
        exact mul_nonneg chunk_pos.le (by omega)
      · exact left_enough _ _ _ step_pos chunk_pos enough none_left
    · show ((((Function.update e.sched.data id _) other).left e.sched.step).length : Int) ≤
        e.sched.chunk * ((Function.update e.sched.data id _) other).ntask
      rw [Function.update_of_ne eq]
      exact enough
  · have apart : other ≠ id := by
      rintro rfl
      exact absurd id_lt (Nat.not_lt.mpr above)
    show ((Function.update e.sched.data id _) other).ntask ≤ 0
    rw [Function.update_of_ne apart]
    exact handed.beyond other above
  · obtain ⟨others, before, behind⟩ := exists_sum_update Part.ntask e.sched.data id_lt
    have count := handed.count
    have flights := flights_sent e
      [.task (e.sched.data id).start (e.sched.next (e.sched.data id)).1] inside some_back
    rw [before] at count
    show ∑ other ∈ Finset.range e.sched.nw, ((Function.update e.sched.data id _) other).ntask +
      ∑ w ∈ Finset.range e.sched.nw, (_ + _) = e.sched.totaltasks - 1
    rw [behind]
    refine (congrArg _ flights).trans ?_
    simp only [List.map_cons, List.map_nil, List.sum_cons, List.sum_nil, add_zero, Message.tasks]
    linarith
  · have apart : w ≠ wid := by
      rintro rfl
      exact absurd inside (Nat.not_lt.mpr above)
    simp only [Emitter.sent, Function.update_of_ne apart]
    exact handed.others w above
  · obtain ⟨tasks, each, eq⟩ := handed.queues w below
    by_cases same : w = wid
    · subst same
      have none : e.eosLeft w = [] := if_neg fun sent => by rw [unsent] at sent; cases sent.1
      refine ⟨tasks ++ [.task (e.sched.data id).start (e.sched.next (e.sched.data id)).1],
        fun message member => ?_, ?_⟩
      · rcases List.mem_append.mp member with earlier | last
        · exact each message earlier
        · rw [List.mem_singleton.mp last]
          rfl
      · show (Function.update e.queue w _) w = _ ++ e.eosLeft w
        rw [Function.update_self, none, List.append_nil, eq, none, List.append_nil]
    · refine ⟨tasks, each, ?_⟩
      show (Function.update e.queue wid _) w = _ ++ e.eosLeft w
      rw [Function.update_of_ne same]
      exact eq
  · obtain ⟨sent, empty⟩ := handed.stopped w below stopped
    have apart : w ≠ wid := by
      rintro rfl
      rw [unsent] at sent
      cases sent
    refine ⟨sent, ?_⟩
    simp only [Emitter.sent, Function.update_of_ne apart]
    exact empty
  · have flight := flight_sent e
      [.task (e.sched.data id).start (e.sched.next (e.sched.data id)).1] some_back w
    refine lt_of_lt_of_eq ?_ flight.symm
    have before := handed.working w below unsent
    simp only [List.map_cons, List.map_nil, List.sum_cons, List.sum_nil, add_zero, Message.tasks]
    split_ifs <;> omega

/-- A task came back when there are no more: the worker gets the end of the stream, if it has not
got it before. -/
theorem close (handed : Handed whole run e) (inside : wid < e.sched.nw)
    (some_back : e.back wid = n + 1) (none_left : ∀ id, (e.sched.data id).ntask ≤ 0)
    (more : List Message)
    (either : e.eossent wid = true ∧ more = [] ∨ e.eossent wid = false ∧ more = [.eos])
    (maxid : Int) (ended : Bool) (last : ended = true → e.sched.totaltasks = 1)
    (going : ended = false → 1 < e.sched.totaltasks) :
    Handed whole run (e.closed wid n more maxid ended) := by
  have no_tasks : (more.map Message.tasks).sum = 0 := by
    rcases either with ⟨-, rfl⟩ | ⟨-, rfl⟩ <;> simp [Message.tasks]
  have no_idxs : (more.map (Message.idxs e.sched.step)).sum = 0 := by
    rcases either with ⟨-, rfl⟩ | ⟨-, rfl⟩ <;> simp [Message.idxs]
  refine {
    step_pos := handed.step_pos
    chunk_pos := handed.chunk_pos
    size := handed.size
    places := ?_
    enough := handed.enough
    beyond := handed.beyond
    count := ?_
    ended := fun ended => by
      have := last ended
      dsimp only [Emitter.closed]
      omega
    going := fun running => by
      have := going running
      dsimp only [Emitter.closed]
      omega
    others := fun w above => ?_
    queues := fun w below => ?_
    stopped := fun w below stopped => ?_
    working := fun w below unsent => ?_
    closed := fun _ _ _ => none_left }
  · obtain ⟨others, before, behind⟩ := exists_sum_update
      (fun queue : List Message => (queue.map (Message.idxs e.sched.step)).sum) e.queue inside
    have places := handed.places
    rw [before] at places
    dsimp only [Emitter.closed]
    rw [behind, List.map_append, List.sum_append, no_idxs, add_zero, ← places]
  · have flights := flights_sent e more inside some_back
    have count := handed.count
    rw [no_tasks] at flights
    show ∑ other ∈ Finset.range e.sched.nw, (e.sched.data other).ntask +
      ∑ w ∈ Finset.range e.sched.nw, (_ + _) = e.sched.totaltasks - 1
    refine (congrArg _ flights).trans ?_
    linarith
  · have apart : w ≠ wid := by
      rintro rfl
      exact absurd inside (Nat.not_lt.mpr above)
    simp only [Emitter.closed, Function.update_of_ne apart]
    exact handed.others w above
  · obtain ⟨tasks, each, eq⟩ := handed.queues w below
    refine ⟨tasks, each, ?_⟩
    unfold Emitter.eosLeft at eq ⊢
    unfold Emitter.closed
    by_cases same : w = wid
    · subst same
      simp only [Function.update_self]
      rcases either with ⟨sent, rfl⟩ | ⟨unsent, rfl⟩
      · rw [List.append_nil]
        simp only [sent] at eq
        exact eq
      · have running : e.stopped w = false := by
          by_contra stopped
          have sent := (handed.stopped w inside (by simpa using stopped)).1
          rw [unsent] at sent
          cases sent
        simp only [unsent, Bool.false_eq_true, false_and, if_false, List.append_nil] at eq
        rw [eq, if_pos ⟨trivial, running⟩]
    · simp only [Function.update_of_ne same]
      exact eq
  · obtain ⟨sent, empty⟩ := handed.stopped w below stopped
    by_cases same : w = wid
    · subst same
      have nothing : more = [] := by
        rcases either with ⟨-, rfl⟩ | ⟨unsent, -⟩
        · rfl
        · rw [unsent] at sent
          cases sent
      simp only [Emitter.closed, Function.update_self]
      exact ⟨trivial, by rw [nothing, List.append_nil]; exact empty⟩
    · simp only [Emitter.closed, Function.update_of_ne same]
      exact ⟨sent, empty⟩
  · have apart : w ≠ wid := by
      rintro rfl
      simp only [Emitter.closed, Function.update_self, Bool.true_eq_false] at unsent
    simp only [Emitter.closed, Function.update_of_ne apart] at unsent
    have flight := flight_sent e more some_back w
    rw [if_neg apart, add_zero] at flight
    exact lt_of_lt_of_eq (handed.working w below unsent) flight.symm

/-- `std::max_element` finds a part that has no less tasks than any other one. -/
theorem maxElement_spec (s : ForallScheduler) :
    ∀ id < s.size, (s.data id).ntask ≤ (s.data s.maxElement).ntask := by
  unfold ForallScheduler.maxElement
  generalize s.size = size
  induction size with
  | zero => simp
  | succ size ih =>
    intro id below
    rw [List.range_succ, List.foldl_append, List.foldl_cons, List.foldl_nil]
    set best := (List.range size).foldl _ 0
    rcases Nat.lt_succ_iff_lt_or_eq.mp below with earlier | rfl
    · have known := ih id earlier
      split_ifs <;> omega
    · split_ifs <;> omega

/-- What `nextTask` does: it takes a chunk of a part that has a task, or no part has one. -/
theorem nextTask_cases (s : ForallScheduler) (wid : Nat) (nonneg : 0 ≤ (s.data wid).ntask)
    (beyond : ∀ id, s.size ≤ id → (s.data id).ntask ≤ 0) :
    (∃ id maxid, 0 < (s.data id).ntask ∧
      s.nextTask wid = (some (s.takeTask id).1, { (s.takeTask id).2 with maxid })) ∨
      ∃ maxid, (∀ id, (s.data id).ntask ≤ 0) ∧ s.nextTask wid = (none, { s with maxid }) := by
  unfold ForallScheduler.nextTask
  split_ifs with own known best
  · exact .inl ⟨wid, s.maxid, by omega, rfl⟩
  · exact .inl ⟨s.maxid.toNat, s.maxid, known.2, rfl⟩
  · exact .inl ⟨s.maxElement, s.maxElement, best, rfl⟩
  · refine .inr ⟨s.maxElement, fun id => ?_, rfl⟩
    rcases lt_or_ge id s.size with inside | above
    · exact (maxElement_spec s id inside).trans (by omega)
    · exact beyond id above

/-- What `svc` does with a task that came back. -/
theorem svc_cases (handed : Handed whole run e) (running : e.ended = false)
    (some_back : e.back wid = n + 1) : wid < e.sched.nw ∧
      ((∃ id maxid, id < e.sched.nw ∧ 0 < (e.sched.data id).ntask ∧ e.eossent wid = false ∧
          1 < e.sched.totaltasks ∧
          { e with back := Function.update e.back wid n }.svc wid = e.sent wid n id maxid) ∨
        ∃ more maxid ended, (∀ id, (e.sched.data id).ntask ≤ 0) ∧
          (e.eossent wid = true ∧ more = [] ∨ e.eossent wid = false ∧ more = [.eos]) ∧
          (ended = true → e.sched.totaltasks = 1) ∧ (ended = false → 1 < e.sched.totaltasks) ∧
          { e with back := Function.update e.back wid n }.svc wid =
            e.closed wid n more maxid ended) := by
  have inside : wid < e.sched.nw := by
    by_contra other
    rw [(handed.others wid (by omega)).2] at some_back
    omega
  -- the task that came back is still counted
  have counted : 0 ≤ ∑ id ∈ Finset.range e.sched.nw, (e.sched.data id).ntask ∧
      1 ≤ ∑ w ∈ Finset.range e.sched.nw, e.flight w := by
    refine ⟨Finset.sum_nonneg fun id below => handed.ntask_nonneg (Finset.mem_range.mp below), ?_⟩
    have own : 1 ≤ e.flight wid := by
      have := tasks_nonneg (e.queue wid)
      unfold Emitter.flight
      omega
    exact own.trans (Finset.single_le_sum (f := e.flight) (fun w _ => flight_nonneg e w)
      (Finset.mem_range.mpr inside))
  have count := handed.count
  have eos : ∀ sched : ForallScheduler, ∃ more,
      (e.eossent wid = true ∧ more = [] ∨ e.eossent wid = false ∧ more = [.eos]) ∧
        Emitter.sendEos { e with sched, back := Function.update e.back wid n } wid =
          { e with
            sched
            eossent := Function.update e.eossent wid true
            queue := Function.update e.queue wid (e.queue wid ++ more)
            back := Function.update e.back wid n } := fun sched => by
    unfold Emitter.sendEos
    dsimp only
    rcases sent : e.eossent wid with _ | _
    · exact ⟨[.eos], .inr ⟨rfl, rfl⟩, rfl⟩
    · refine ⟨[], .inl ⟨rfl, rfl⟩, ?_⟩
      have unchanged : Function.update e.eossent wid true = e.eossent := by
        rw [← sent, Function.update_eq_self]
      rw [if_pos rfl, unchanged, List.append_nil, Function.update_eq_self]
  refine ⟨inside, ?_⟩
  unfold Emitter.svc
  dsimp only
  split_ifs with last
  · have one : e.sched.totaltasks = 1 := by omega
    have none_left : ∀ id, (e.sched.data id).ntask ≤ 0 := fun id => by
      rcases lt_or_ge id e.sched.nw with below | above
      · have := Finset.single_le_sum (f := fun id => (e.sched.data id).ntask)
          (fun id below => handed.ntask_nonneg (Finset.mem_range.mp below))
          (Finset.mem_range.mpr below)
        omega
      · exact handed.beyond id above
    obtain ⟨more, either, eq⟩ := eos { e.sched with totaltasks := e.sched.totaltasks - 1 }
    exact .inr ⟨more, e.sched.maxid, true, none_left, either, fun _ => one,
      (fun running => by cases running), by rw [eq]; rfl⟩
  · rcases nextTask_cases { e.sched with totaltasks := e.sched.totaltasks - 1 } wid
      (handed.ntask_nonneg inside) (fun id above => handed.beyond id (handed.size.trans above))
      with ⟨id, maxid, some_left, eq⟩ | ⟨maxid, none_left, eq⟩
    · rw [eq]
      have id_lt : id < e.sched.nw := by
        by_contra above
        exact absurd (handed.beyond id (by omega)) (by simpa using some_left)
      have unsent : e.eossent wid = false := by
        by_contra sent
        exact absurd (handed.closed wid inside (by simpa using sent) id) (by simpa using some_left)
      exact .inl ⟨id, maxid, id_lt, some_left, unsent, by omega, rfl⟩
    · rw [eq]
      obtain ⟨more, either, eq⟩ :=
        eos { e.sched with totaltasks := e.sched.totaltasks - 1, maxid }
      exact .inr ⟨more, maxid, e.ended, none_left, either,
        fun ended => absurd (running.symm.trans ended) (by decide), fun _ => by omega, eq⟩

/-- `svc` keeps the tasks in their places. -/
theorem svc (handed : Handed whole run e) (running : e.ended = false)
    (some_back : e.back wid = n + 1) :
    Handed whole run ({ e with back := Function.update e.back wid n }.svc wid) ∧
      ({ e with back := Function.update e.back wid n }.svc wid).sched.step = e.sched.step ∧
      ({ e with back := Function.update e.back wid n }.svc wid).sched.nw = e.sched.nw := by
  obtain ⟨inside, ⟨id, maxid, id_lt, some_left, unsent, going, eq⟩ |
    ⟨more, maxid, ended, none_left, either, last, going, eq⟩⟩ :=
      handed.svc_cases running some_back
  · rw [eq]
    exact ⟨handed.send inside running some_back unsent id_lt some_left going maxid, rfl, rfl⟩
  · rw [eq]
    exact ⟨handed.close inside some_back none_left more either maxid ended last going, rfl, rfl⟩

/-- Every step keeps the tasks in their places. -/
theorem step {e' : Emitter} {event : Option Task} (handed : Handed whole run e)
    (moves : Emitter.Step e event e') :
    Handed whole (run + Task.run e.sched.step event.toList) e' ∧
      e'.sched.step = e.sched.step ∧ e'.sched.nw = e.sched.nw := by
  cases moves with
  | work running first =>
    refine ⟨?_, rfl, rfl⟩
    simpa [Task.run] using handed.work running first
  | stop running first =>
    refine ⟨?_, rfl, rfl⟩
    simpa [Task.run] using handed.stop running first
  | receive running some_back =>
    obtain ⟨kept, same⟩ := handed.svc running some_back
    exact ⟨by simpa [Task.run] using kept, same⟩

/-- Every run keeps the tasks in their places. -/
theorem steps {e' : Emitter} {history : List Task} (handed : Handed whole run e)
    (moves : History Emitter.Step e history e') :
    Handed whole (run + Task.run e.sched.step history) e' ∧
      e'.sched.step = e.sched.step ∧ e'.sched.nw = e.sched.nw := by
  induction moves with
  | start => exact ⟨by simpa [Task.run] using handed, rfl, rfl⟩
  | step _ moves ih =>
    obtain ⟨kept, step_eq, nw_eq⟩ := ih
    obtain ⟨kept', step_eq', nw_eq'⟩ := kept.step moves
    rw [step_eq, add_assoc, ← Sound.run_append] at kept'
    exact ⟨kept', step_eq'.trans step_eq, nw_eq'.trans nw_eq⟩

/-- All tasks of a run are run by workers that are started. -/
theorem workers_lt {e' : Emitter} {history : List Task} (handed : Handed whole run e)
    (moves : History Emitter.Step e history e') : ∀ task ∈ history, task.worker < e.sched.nw := by
  induction moves with
  | start => simp
  | @step g g' tasks event before moves ih =>
    obtain ⟨kept, -, nw_eq⟩ := handed.steps before
    intro task inside
    rcases List.mem_append.mp inside with earlier | last
    · exact ih task earlier
    · rw [Option.mem_toList] at last
      rw [← nw_eq]
      cases last
      cases moves with
      | work running first => exact kept.queue_started (by rw [first]; simp)

/-- A worker with a task can run it, or the emitter can take it back. -/
theorem flight_step (handed : Handed whole run e) (running : e.ended = false)
    (inside : wid < e.sched.nw) (some_flight : 0 < e.flight wid) :
    ∃ event e', Emitter.Step e event e' := by
  rcases back : e.back wid with _ | n
  · obtain ⟨tasks, each, eq⟩ := handed.queues wid inside
    unfold Emitter.flight at some_flight
    rw [back, Nat.cast_zero, add_zero] at some_flight
    have started : e.stopped wid = false := by
      by_contra stopped
      rw [(handed.stopped wid inside (by simpa using stopped)).2] at some_flight
      exact absurd some_flight (by decide)
    rcases tasks with _ | ⟨_ | _, tasks⟩
    · rw [eq, List.nil_append, Emitter.eosLeft] at some_flight
      split_ifs at some_flight <;> simp [Message.tasks] at some_flight
    · exact ⟨_, _, .work started eq⟩
    · exact absurd (each .eos (List.mem_cons_self ..)) (by simp [Message.isTask])
  · exact ⟨_, _, .receive running back⟩

/-- The emitter and its workers are never stuck before the emitter has ended. -/
theorem progress (handed : Handed whole run e) (running : e.ended = false) :
    ∃ event e', Emitter.Step e event e' := by
  by_contra stuck
  have none : ∀ wid < e.sched.nw, e.flight wid = 0 := fun wid inside => by
    by_contra some_flight
    have := flight_nonneg e wid
    exact stuck (handed.flight_step running inside (by omega))
  have none_left : ∀ id ∈ Finset.range e.sched.nw, (e.sched.data id).ntask ≤ 0 := fun id below => by
    have inside := Finset.mem_range.mp below
    have sent : e.eossent id = true := by
      by_contra unsent
      have := handed.working id inside (by simpa using unsent)
      have := none id inside
      omega
    exact handed.closed id inside sent id
  have count := handed.count
  have going := handed.going running
  rw [Finset.sum_eq_zero fun wid below => none wid (Finset.mem_range.mp below), add_zero] at count
  have := Finset.sum_nonpos none_left
  omega

/-- When the emitter has ended everything is run, and every worker has got the end of the stream
behind its tasks. -/
theorem finished (handed : Handed whole run e) (ended : e.ended = true) :
    run = whole ∧ (∀ id, (e.sched.data id).ntask ≤ 0) ∧
      ∀ wid < e.sched.nw, e.queue wid = if e.stopped wid = true then [] else [.eos] := by
  have count := handed.count
  rw [handed.ended ended] at count
  have tasks_nonneg : ∀ id ∈ Finset.range e.sched.nw, 0 ≤ (e.sched.data id).ntask :=
    fun id below => handed.ntask_nonneg (Finset.mem_range.mp below)
  have flights_nonneg : ∀ wid ∈ Finset.range e.sched.nw, 0 ≤ e.flight wid :=
    fun wid _ => flight_nonneg e wid
  have no_tasks : ∀ id ∈ Finset.range e.sched.nw, (e.sched.data id).ntask = 0 := by
    refine (Finset.sum_eq_zero_iff_of_nonneg tasks_nonneg).mp ?_
    have := Finset.sum_nonneg tasks_nonneg
    have := Finset.sum_nonneg flights_nonneg
    omega
  have no_flights : ∀ wid ∈ Finset.range e.sched.nw, e.flight wid = 0 := by
    refine (Finset.sum_eq_zero_iff_of_nonneg flights_nonneg).mp ?_
    have := Finset.sum_nonneg tasks_nonneg
    have := Finset.sum_nonneg flights_nonneg
    omega
  have queues : ∀ wid < e.sched.nw, e.queue wid = if e.stopped wid = true then [] else [.eos] :=
    fun wid inside => by
      have none := no_flights wid (Finset.mem_range.mpr inside)
      have sent : e.eossent wid = true := by
        by_contra unsent
        have := handed.working wid inside (by simpa using unsent)
        omega
      split_ifs with stopped
      · exact (handed.stopped wid inside stopped).2
      · obtain ⟨tasks, each, eq⟩ := handed.queues wid inside
        rw [Emitter.eosLeft, if_pos ⟨sent, by simpa using stopped⟩] at eq
        rcases tasks with _ | ⟨_ | _, tasks⟩
        · exact eq
        · unfold Emitter.flight at none
          rw [eq, List.cons_append, List.map_cons, List.sum_cons] at none
          have := Handed.tasks_nonneg (tasks ++ [.eos])
          simp only [Message.tasks] at none
          omega
        · exact absurd (each .eos (List.mem_cons_self ..)) (by simp [Message.isTask])
  refine ⟨?_, fun id => ?_, queues⟩
  · have places := handed.places
    have no_idxs : ∀ wid ∈ Finset.range e.sched.nw,
        ((e.queue wid).map (Message.idxs e.sched.step)).sum = 0 := fun wid below => by
      rw [queues wid (Finset.mem_range.mp below)]
      split_ifs <;> simp [Message.idxs]
    have none_left : ∀ id ∈ Finset.range e.sched.nw,
        ((e.sched.data id).left e.sched.step : Multiset Int) = 0 := fun id below => by
      have enough := handed.enough id (Finset.mem_range.mp below)
      rw [no_tasks id below, mul_zero] at enough
      have none : (e.sched.data id).left e.sched.step = [] :=
        List.length_eq_zero_iff.mp (by omega)
      rw [none]
      rfl
    rw [Finset.sum_eq_zero no_idxs, Finset.sum_eq_zero none_left, add_zero, add_zero] at places
    exact places
  · rcases lt_or_ge id e.sched.nw with inside | above
    · exact (no_tasks id (Finset.mem_range.mpr inside)).le
    · exact handed.beyond id above

/-- Every step leaves less to do. -/
theorem decreases {e' : Emitter} {event : Option Task} (handed : Handed whole run e)
    (moves : Emitter.Step e event e') : 0 ≤ e'.todo ∧ e'.todo < e.todo := by
  have nonneg : 0 ≤ e'.todo := by
    have kept := (handed.step moves).1
    have total : 0 ≤ e'.sched.totaltasks := by
      rcases ended : e'.ended with _ | _
      · exact (kept.going ended).le
      · exact (kept.ended ended).ge
    have queues := Finset.sum_nonneg fun (wid : Nat) (_ : wid ∈ Finset.range e'.sched.nw) =>
      tasks_nonneg (e'.queue wid)
    have stops := Finset.sum_nonneg fun (wid : Nat) (_ : wid ∈ Finset.range e'.sched.nw) =>
      Int.natCast_nonneg (!e'.stopped wid).toNat
    unfold Emitter.todo
    omega
  refine ⟨nonneg, ?_⟩
  cases moves with
  | @work wid start stop rest running first =>
    obtain ⟨others, before, behind⟩ := exists_sum_update
      (fun queue : List Message => (queue.map Message.tasks).sum) e.queue
      (handed.queue_started (by rw [first]; simp))
    simp only [Emitter.todo]
    rw [before, behind, first, List.map_cons, List.sum_cons]
    simp only [Message.tasks]
    omega
  | @stop wid rest running first =>
    have inside := handed.queue_started (by rw [first]; simp)
    obtain ⟨others, before, behind⟩ := exists_sum_update
      (fun queue : List Message => (queue.map Message.tasks).sum) e.queue inside
    obtain ⟨others', before', behind'⟩ := exists_sum_update
      (fun stopped : Bool => ((!stopped).toNat : Int)) e.stopped inside
    simp only [Emitter.todo]
    rw [before, behind, before', behind', first, running, List.map_cons, List.sum_cons]
    simp only [Message.tasks, Bool.not_true, Bool.not_false, Bool.toNat_true, Bool.toNat_false]
    omega
  | @receive wid n running some_back =>
    obtain ⟨inside, ⟨id, maxid, -, -, -, -, eq⟩ | ⟨more, maxid, ended, -, either, -, -, eq⟩⟩ :=
      handed.svc_cases running some_back
    · obtain ⟨others, before, behind⟩ := exists_sum_update
        (fun queue : List Message => (queue.map Message.tasks).sum) e.queue inside
      rw [eq]
      simp only [Emitter.todo, Emitter.sent]
      rw [before, behind, List.map_append, List.sum_append]
      simp only [List.map_cons, List.map_nil, List.sum_cons, List.sum_nil, Message.tasks]
      omega
    · obtain ⟨others, before, behind⟩ := exists_sum_update
        (fun queue : List Message => (queue.map Message.tasks).sum) e.queue inside
      have no_tasks : (more.map Message.tasks).sum = 0 := by
        rcases either with ⟨-, rfl⟩ | ⟨-, rfl⟩ <;> simp [Message.tasks]
      rw [eq]
      simp only [Emitter.todo, Emitter.closed]
      rw [before, behind, List.map_append, List.sum_append, no_tasks]
      omega

/-- There is no run without an end. -/
theorem no_endless (handed : Handed whole run e) (states : Nat → Emitter) (first : states 0 = e) :
    ¬∀ n, ∃ event, Emitter.Step (states n) event (states (n + 1)) := by
  intro endless
  refine @no_infinite_descent _ _ _ _ (fun e e' => ∃ event, Emitter.Step e event e')
    (fun e => ∃ run, Handed whole run e) (fun e => e.todo.toNat) (fun e e' known moves => ?_)
    _ ⟨run, handed⟩ ⟨states, first, endless⟩
  obtain ⟨run, handed⟩ := known
  obtain ⟨event, moves⟩ := moves
  have lower := handed.decreases moves
  refine ⟨⟨_, (handed.step moves).1⟩, ?_⟩
  omega

/-- Where no step is possible the emitter has ended and all workers have stopped. -/
theorem stuck (handed : Handed whole run e) (none : ¬∃ event e', Emitter.Step e event e') :
    e.ended = true ∧ ∀ wid < e.sched.nw, e.stopped wid = true := by
  have ended : e.ended = true := by
    by_contra running
    exact none (handed.progress (by simpa using running))
  refine ⟨ended, fun wid inside => ?_⟩
  by_contra running
  have queue := (handed.finished ended).2.2 wid inside
  rw [if_neg running] at queue
  exact none ⟨_, _, .stop (by simpa using running) queue⟩

end Handed

end P3arsec.Fastflow
