import P3arsec.Fastflow.ParallelForDealt
import P3arsec.Fastflow.ParallelForLoop

/-!
# Parallel loops run every index once

Over all the loops that one scheduler runs, with or without the scheduler thread and whatever their
steps are: a loop leaves no tasks behind, so the next one starts well. A reduction over a loop gives
what the sequential loop gives.
-/

namespace P3arsec.Fastflow

open P3arsec.Lib.Concurrent

variable {l : Loop} {s s' : ForallScheduler} {tasks : List Task} {f : Forall} {e : Emitter}

/-- What the workers have of some tasks is all of them. -/
theorem sum_workers {M : Type} [AddCommMonoid M] (g : Task → M) (nw : Nat)
    (inside : ∀ task ∈ tasks, task.worker < nw) :
    ∑ wid ∈ Finset.range nw, ((tasks.filter fun task => task.worker = wid).map g).sum =
      (tasks.map g).sum := by
  induction tasks with
  | nil => simp
  | cons task tasks ih =>
    have worker_lt := inside task (List.mem_cons_self ..)
    have each : ∀ wid, (((task :: tasks).filter fun task => task.worker = wid).map g).sum =
        (if task.worker = wid then g task else 0) +
          ((tasks.filter fun task => task.worker = wid).map g).sum := fun wid => by
      by_cases same : task.worker = wid <;> simp [same]
    simp only [each]
    rw [Finset.sum_add_distrib, ih fun task later => inside task (List.mem_cons_of_mem _ later),
      Finset.sum_ite_eq, if_pos (Finset.mem_range.mpr worker_lt), List.map_cons, List.sum_cons]

/-- The indices of tasks, one task after another. -/
theorem run_eq_sum (step : Int) (tasks : List Task) : Task.run step tasks =
    (tasks.map fun task => (indices step task.start task.stop : Multiset Int)).sum := by
  induction tasks with
  | nil => rfl
  | cons task tasks ih =>
    rw [List.map_cons, List.sum_cons, ← ih]
    simp [Task.run]

/-- The first tasks and what the workers start with. -/
theorem LaidOut.begin {whole : Multiset Int} (laid : LaidOut whole s) (full : Full s)
    (spinwait : Bool) :
    (∃ rest, Task.run s.step (Forall.begin s spinwait).1 + rest = whole ∧
      Sound rest 0 (Forall.begin s spinwait).2) ∧
      (Forall.begin s spinwait).2.sched.step = s.step ∧
      (Forall.begin s spinwait).2.sched.nw = s.nw ∧
      ∀ task ∈ (Forall.begin s spinwait).1, task.worker < s.nw := by
  cases spinwait with
  | false =>
    have dealt := Dealt.sendTask laid fun id below => by
      have := full.each id below
      omega
    obtain ⟨rest, total, kept⟩ := dealt.laid
    exact ⟨⟨rest, total, kept.start⟩, dealt.kept.1, dealt.kept.2.1, dealt.workers⟩
  | true =>
    refine ⟨⟨whole, ?_, laid.start⟩, rfl, rfl, fun task inside => ?_⟩
    · -- the tasks that wake the workers have no indices
      have empty : ∀ task ∈ (List.range s.nw).map fun wid => Task.mk wid 0 0,
          indices s.step task.start task.stop = [] := fun task inside => by
        obtain ⟨wid, -, rfl⟩ := List.mem_map.mp inside
        exact indices_nil laid.step_pos le_rfl
      show Task.run s.step ((List.range s.nw).map fun wid => Task.mk wid 0 0) + whole = whole
      rw [Task.run, List.flatMap_eq_nil_iff.mpr empty]
      exact zero_add whole
    · obtain ⟨wid, below, rfl⟩ := List.mem_map.mp inside
      exact List.mem_range.mp below

/-- What the emitter and the workers start with. -/
theorem LaidOut.emitter {whole : Multiset Int} (laid : LaidOut whole s) (full : Full s)
    (spinwait : Bool) (eossent : Nat → Bool) :
    Handed whole 0 (Emitter.begin s spinwait eossent) := by
  have dealt := Dealt.sendFirst laid (fun id below => by
    have := full.each id below
    omega) spinwait
  obtain ⟨step_eq, nw_eq, chunk_eq, size_eq, tasks_eq⟩ := dealt.kept
  obtain ⟨rest, total, kept⟩ := dealt.laid
  have given : ∀ wid < s.nw, ∃ task ∈ (s.sendFirst spinwait).1, task.worker = wid :=
    fun _ inside => Dealt.given laid full spinwait inside
  have unsent : ∀ wid < (s.sendFirst spinwait).2.nw,
      (Emitter.begin s spinwait eossent).eossent wid = false := fun wid below => by
    obtain ⟨task, member, worker⟩ := given wid (by rw [← nw_eq]; exact below)
    exact if_pos (List.any_eq_true.mpr ⟨task, member, by simpa using worker⟩)
  have flights : ∀ wid, (Emitter.begin s spinwait eossent).flight wid =
      (((s.sendFirst spinwait).1.filter fun task => task.worker = wid).map
        fun _ => (1 : Int)).sum := fun wid => by
      simp only [Emitter.flight, Emitter.begin, List.map_map, Nat.cast_zero, add_zero]
      rfl
  refine {
    step_pos := kept.step_pos
    chunk_pos := kept.chunk_pos
    size := ?_
    places := ?_
    enough := fun id below => ?_
    beyond := kept.beyond
    count := ?_
    ended := fun ended => absurd ended (by simp [Emitter.begin])
    going := fun _ => ?_
    others := fun wid above => ⟨?_, rfl⟩
    queues := fun wid below => ⟨(Emitter.begin s spinwait eossent).queue wid, ?_, ?_⟩
    stopped := fun wid _ stopped => absurd stopped (by simp [Emitter.begin])
    working := fun wid below _ => ?_
    closed := fun wid below sent => ?_ }
  · show (s.sendFirst spinwait).2.nw ≤ (s.sendFirst spinwait).2.size
    rw [nw_eq, size_eq]
    exact full.size
  · have messages := sum_workers
      (fun task => (indices s.step task.start task.stop : Multiset Int)) s.nw dealt.workers
    rw [← run_eq_sum] at messages
    show 0 + ∑ wid ∈ Finset.range (s.sendFirst spinwait).2.nw,
      ((((s.sendFirst spinwait).1.filter fun task => task.worker = wid).map fun task =>
        Message.task task.start task.stop).map
          (Message.idxs (s.sendFirst spinwait).2.step)).sum +
      ∑ id ∈ Finset.range (s.sendFirst spinwait).2.nw,
        (((s.sendFirst spinwait).2.data id).left (s.sendFirst spinwait).2.step : Multiset Int) =
          whole
    simp only [List.map_map]
    rw [kept.places, step_eq, nw_eq, zero_add]
    exact (congrArg (· + rest) messages).trans total
  · show (((((s.sendFirst spinwait).2.data id).left (s.sendFirst spinwait).2.step).length : Nat) :
      Int) ≤ (s.sendFirst spinwait).2.chunk * ((s.sendFirst spinwait).2.data id).ntask
    by_cases none_left : ((s.sendFirst spinwait).2.data id).left (s.sendFirst spinwait).2.step = []
    · rw [none_left]
      exact mul_nonneg kept.chunk_pos.le (dealt.nonneg id (by rw [← nw_eq]; exact below))
    · exact kept.enough id below none_left
  · rw [Finset.sum_congr rfl fun wid _ => flights wid]
    show ∑ id ∈ Finset.range (s.sendFirst spinwait).2.nw, ((s.sendFirst spinwait).2.data id).ntask +
      ∑ wid ∈ Finset.range (s.sendFirst spinwait).2.nw, _ = (s.sendFirst spinwait).2.totaltasks
    rw [nw_eq, tasks_eq, sum_workers (fun _ => (1 : Int)) s.nw dealt.workers, ← full.tasks,
      ← dealt.count, List.map_const', List.sum_replicate, nsmul_eq_mul, mul_one]
  · show 0 < (s.sendFirst spinwait).2.totaltasks
    rw [tasks_eq, ← full.tasks]
    exact Finset.sum_pos (fun id below => by
      have := full.each id (Finset.mem_range.mp below)
      omega) ⟨0, Finset.mem_range.mpr full.some_workers⟩
  · show (((s.sendFirst spinwait).1.filter fun task => task.worker = wid).map _ : List Message) = []
    rw [List.filter_eq_nil_iff.mpr fun task member => ?_, List.map_nil]
    have := dealt.workers task member
    have above : s.nw ≤ wid := by rw [← nw_eq]; exact above
    simp only [decide_eq_true_eq]
    omega
  · intro message member
    obtain ⟨task, -, rfl⟩ := List.mem_map.mp member
    rfl
  · rw [Emitter.eosLeft, if_neg, List.append_nil]
    rintro ⟨sent, -⟩
    exact absurd ((unsent wid below).symm.trans sent) (by decide)
  · obtain ⟨task, member, worker⟩ := given wid (by rw [← nw_eq]; exact below)
    rw [flights, List.map_const', List.sum_replicate, nsmul_eq_mul, mul_one]
    exact_mod_cast List.length_pos_of_mem
      (List.mem_filter.mpr ⟨member, by simpa using worker⟩)
  · exact absurd ((unsent wid below).symm.trans sent) (by decide)

/-- A run of a loop without the scheduler thread, up to some step. -/
theorem Loop.Runs.sound (idle : ∀ id, 0 < id → (s.data id).ntask ≤ 0) (fine : l.Fine)
    (runs : l.Runs s tasks f) :
    Task.run l.step tasks ≤ (indices l.step l.start l.stop : List Int) ∧
      ((∀ wid, f.worker wid = .done) →
        Task.run l.step tasks = (indices l.step l.start l.stop : List Int) ∧
          ∀ id, 0 < id → (f.sched.data id).ntask ≤ 0) ∧
      (f.sched.nw ≤ 1 ∨ ∀ task ∈ tasks, task.worker < f.sched.nw) := by
  obtain ⟨laid, full, step_eq⟩ := setloop_laidOut fine.some_left fine.step_pos fine.chunk_nonneg
    fine.some_workers idle
  cases runs with
  | alone one =>
    have run : Task.run l.step [⟨0, l.start, l.stop⟩] =
        (indices l.step l.start l.stop : List Int) := by
      simp [Task.run]
    exact ⟨run.le, fun _ => ⟨run, fun id above => laid.beyond id (by omega)⟩, .inl one⟩
  | @workers history f spinwait many moves =>
    obtain ⟨⟨rest, total, sound⟩, step_eq', nw_eq, workers⟩ := laid.begin full spinwait
    obtain ⟨kept, -, nw_eq'⟩ := sound.steps moves
    rw [step_eq', step_eq, zero_add] at kept
    rw [step_eq] at total
    rw [Sound.run_append, ← total]
    refine ⟨?_, fun done => ⟨?_, fun id _ => kept.idle (fun wid _ => done wid) id⟩, .inr ?_⟩
    · have places := kept.places
      rw [add_assoc] at places
      exact Multiset.add_le_add_left (by rw [← places]; exact Multiset.le_add_right _ _)
    · rw [kept.finished fun wid _ => done wid]
    · rw [nw_eq', nw_eq]
      intro task inside
      rcases List.mem_append.mp inside with first | later
      · exact workers task first
      · rw [← nw_eq]
        exact sound.workers_lt moves task later

/-- A run of a loop with the scheduler thread, up to some step. -/
theorem Emitter.begin_steps (idle : ∀ id, 0 < id → (s.data id).ntask ≤ 0) (fine : l.Fine)
    {spinwait : Bool} {eossent : Nat → Bool} (moves : History Emitter.Step
      (Emitter.begin (s.setloop l.start l.stop l.step l.chunk l.nw) spinwait eossent) tasks e) :
    Handed (indices l.step l.start l.stop : List Int) (Task.run l.step tasks) e ∧
      ∀ task ∈ tasks, task.worker < e.sched.nw := by
  obtain ⟨laid, full, step_eq⟩ := setloop_laidOut fine.some_left fine.step_pos fine.chunk_nonneg
    fine.some_workers idle
  have handed := laid.emitter full spinwait eossent
  obtain ⟨kept, -, nw_eq⟩ := handed.steps moves
  have step_eq' : (Emitter.begin (s.setloop l.start l.stop l.step l.chunk l.nw) spinwait
      eossent).sched.step = l.step := by
    refine Eq.trans ?_ step_eq
    exact (Dealt.sendFirst laid (fun id below => by
      have := full.each id below
      omega) spinwait).kept.1
  rw [step_eq', zero_add] at kept
  refine ⟨kept, ?_⟩
  rw [nw_eq]
  exact handed.workers_lt moves

/-- A finished loop has run every index once and leaves no tasks but in the first part. -/
theorem Loop.Done.sound (idle : ∀ id, 0 < id → (s.data id).ntask ≤ 0) (fine : l.Fine)
    (done : l.Done s tasks s') :
    Task.run l.step tasks = (indices l.step l.start l.stop : List Int) ∧
      (∀ id, 0 < id → (s'.data id).ntask ≤ 0) ∧
      (s'.nw ≤ 1 ∨ ∀ task ∈ tasks, task.worker < s'.nw) := by
  cases done with
  | workers runs done =>
    obtain ⟨-, finished, workers⟩ := runs.sound idle fine
    exact ⟨(finished done).1, (finished done).2, workers⟩
  | emitter spinwait eossent many moves ended =>
    obtain ⟨handed, workers⟩ := Emitter.begin_steps idle fine moves
    obtain ⟨run, idle', -⟩ := handed.finished ended
    exact ⟨run, fun id _ => idle' id, .inr workers⟩

/-- Between two loops no part but the first has tasks. -/
theorem ForallScheduler.Reached.idle (reached : s.Reached) (id : Nat) (above : 0 < id) :
    (s.data id).ntask ≤ 0 := by
  induction reached generalizing id with
  | make => exact le_rfl
  | loop _ fine done ih => exact (done.sound ih fine).2.1 id above

/-- At every step of every loop that the workers of a scheduler run, no index has been run twice and
none beyond the loop; where all workers have returned, every index has been run once. -/
theorem parallelFor_once (reached : s.Reached) (fine : l.Fine) (runs : l.Runs s tasks f) :
    Task.run l.step tasks ≤ (indices l.step l.start l.stop : List Int) ∧
      ((∀ wid, f.worker wid = .done) →
        Task.run l.step tasks = (indices l.step l.start l.stop : List Int)) :=
  have sound := runs.sound reached.idle fine
  ⟨sound.1, fun done => (sound.2.1 done).1⟩

/-- So it is with the scheduler thread. It cannot be stuck with its workers, and when it ends every
index has been run once and every worker has got the end of the stream, behind all its tasks. -/
theorem emitter_once (reached : s.Reached) (fine : l.Fine) {spinwait : Bool}
    {eossent : Nat → Bool} (moves : History Emitter.Step
      (Emitter.begin (s.setloop l.start l.stop l.step l.chunk l.nw) spinwait eossent) tasks e) :
    Task.run l.step tasks ≤ (indices l.step l.start l.stop : List Int) ∧
      (e.ended = false → ∃ event e', Emitter.Step e event e') ∧
      (e.ended = true → Task.run l.step tasks = (indices l.step l.start l.stop : List Int) ∧
        ∀ wid < e.sched.nw, e.queue wid = if e.stopped wid = true then [] else [.eos]) := by
  obtain ⟨handed, -⟩ := Emitter.begin_steps reached.idle fine moves
  refine ⟨?_, handed.progress, fun ended => ?_⟩
  · have places := handed.places
    rw [add_assoc] at places
    rw [← places]
    exact Multiset.le_add_right _ _
  · obtain ⟨run, -, queues⟩ := handed.finished ended
    exact ⟨run, queues⟩

/-- A loop with the scheduler thread always ends, and where nothing is left to do the emitter has
ended, its workers have stopped and every index has been run once. -/
theorem emitter_terminates (reached : s.Reached) (fine : l.Fine) (spinwait : Bool)
    (eossent : Nat → Bool) {first : Emitter} (begins : first = Emitter.begin
      (s.setloop l.start l.stop l.step l.chunk l.nw) spinwait eossent) :
    (∀ states : Nat → Emitter, states 0 = first →
      ¬∀ n, ∃ event, Emitter.Step (states n) event (states (n + 1))) ∧
    ∀ tasks e, History Emitter.Step first tasks e → (¬∃ event e', Emitter.Step e event e') →
      e.ended = true ∧ (∀ wid < e.sched.nw, e.stopped wid = true) ∧
        Task.run l.step tasks = (indices l.step l.start l.stop : List Int) := by
  subst begins
  refine ⟨fun states start => ?_, fun tasks e moves none => ?_⟩
  · exact (Emitter.begin_steps reached.idle fine .start).1.no_endless states start
  · obtain ⟨handed, -⟩ := Emitter.begin_steps reached.idle fine moves
    obtain ⟨ended, stopped⟩ := handed.stuck none
    exact ⟨ended, stopped, (handed.finished ended).1⟩

/-- A loop over four indices in chunks of one on two workers: each gets a task before it starts, and
the first one then takes the chunk that is left of its part and steals the one of the other. -/
theorem loop_four : ∃ f, (Loop.mk 0 4 1 1 2).Runs (.make 2)
    [⟨0, 0, 1⟩, ⟨1, 2, 3⟩, ⟨0, 1, 2⟩, ⟨0, 3, 4⟩] f ∧ f.sched.nw = 2 ∧
      ∀ wid, f.worker wid = .done := by
  let s := ((ForallScheduler.make 2).setloop 0 4 1 1 2).sendTask.2
  have begun : History Forall.Step (Forall.start s) [] (Forall.start s) := .start
  -- The first worker takes what is left of its part.
  have own := (((begun.step (@Forall.Step.test _ _ 0 0 rfl)).step
    (@Forall.Step.load _ _ 0 0 rfl)).step (@Forall.Step.swap _ _ 0 0 1 2 rfl rfl)).step
    (@Forall.Step.take _ _ 0 0 1 2 rfl (by decide))
  -- It goes to the other part, where both workers load the begin of the last chunk.
  have steals := (((own.step (@Forall.Step.test _ _ 0 0 rfl)).step
    (@Forall.Step.scan _ _ 0 1 rfl (by decide))).step
    (@Forall.Step.steal _ _ 0 1 rfl (by decide))).step (@Forall.Step.test _ _ 0 1 rfl)
  have both := ((steals.step (@Forall.Step.load _ _ 0 1 rfl)).step
    (@Forall.Step.test _ _ 1 1 rfl)).step (@Forall.Step.load _ _ 1 1 rfl)
  have stolen := ((both.step (@Forall.Step.swap _ _ 0 1 3 4 rfl rfl)).step
    (@Forall.Step.miss _ _ 1 1 3 4 rfl)).step (@Forall.Step.take _ _ 0 1 3 4 rfl (by decide))
  have first := ((stolen.step (@Forall.Step.test _ _ 0 0 rfl)).step
    (@Forall.Step.reuse _ _ 0 rfl (by decide))).step (@Forall.Step.stop _ _ 0 1 rfl (by decide))
  have second := ((first.step (@Forall.Step.test _ _ 1 1 rfl)).step
    (@Forall.Step.reuse _ _ 1 rfl (by decide))).step (@Forall.Step.stop _ _ 1 1 rfl (by decide))
  refine ⟨_, .workers false (by decide) second, rfl, fun wid => ?_⟩
  rcases wid with _ | _ | wid <;> rfl

/-- The four indices are run once. -/
theorem parallelFor_once_four :
    Task.run 1 [⟨0, 0, 1⟩, ⟨1, 2, 3⟩, ⟨0, 1, 2⟩, ⟨0, 3, 4⟩] = ([0, 1, 2, 3] : List Int) := by
  obtain ⟨f, runs, -, done⟩ := loop_four
  exact (parallelFor_once (.make 2) ⟨by decide, by decide, by decide, by decide⟩ runs).2 done

/-- Four tasks for two workers: each runs one, gives it back and gets another one. -/
theorem emitter_four : ∃ e, History Emitter.Step
    (Emitter.begin ((ForallScheduler.make 2).setloop 0 4 1 1 2) false fun _ => false)
      [⟨0, 0, 1⟩, ⟨1, 2, 3⟩, ⟨0, 1, 2⟩, ⟨1, 3, 4⟩] e ∧ e.ended = true := by
  refine ⟨_, .step (.step (.step (.step (.step (.step (.step (.step .start
    (@Emitter.Step.work _ 0 0 1 _ rfl rfl)) (@Emitter.Step.receive _ 0 0 rfl rfl))
    (@Emitter.Step.work _ 1 2 3 _ rfl rfl)) (@Emitter.Step.receive _ 1 0 rfl rfl))
    (@Emitter.Step.work _ 0 1 2 _ rfl rfl)) (@Emitter.Step.receive _ 0 0 rfl rfl))
    (@Emitter.Step.work _ 1 3 4 _ rfl rfl)) (@Emitter.Step.receive _ 1 0 rfl rfl), rfl⟩

/-- The four tasks have run the four indices. -/
theorem emitter_once_four :
    Task.run 1 [⟨0, 0, 1⟩, ⟨1, 2, 3⟩, ⟨0, 1, 2⟩, ⟨1, 3, 4⟩] = ([0, 1, 2, 3] : List Int) := by
  obtain ⟨e, moves, ended⟩ := emitter_four
  exact ((emitter_once (.make 2) (l := ⟨0, 4, 1, 1, 2⟩) ⟨by decide, by decide, by decide, by decide⟩
    moves).2.2 ended).1

/-- A loop with four tasks ends. -/
theorem emitter_terminates_four : ¬∃ states : Nat → Emitter, states 0 =
    Emitter.begin ((ForallScheduler.make 2).setloop 0 4 1 1 2) false (fun _ => false) ∧
      ∀ n, ∃ event, Emitter.Step (states n) event (states (n + 1)) := by
  rintro ⟨states, start, endless⟩
  exact (emitter_terminates (.make 2) (l := ⟨0, 4, 1, 1, 2⟩) ⟨by decide, by decide, by decide,
    by decide⟩ false (fun _ => false) rfl).1 states start endless

/-! ## Reductions -/

section Reductions

variable {M : Type} [CommMonoid M] (value : Int → M)

/-- A loop that multiplies values into a variable. -/
theorem foldl_mul (idxs : List Int) (var : M) :
    idxs.foldl (fun v idx => v * value idx) var = var * (idxs.map value).prod := by
  induction idxs generalizing var with
  | nil => simp
  | cons idx idxs ih => rw [List.foldl_cons, ih, List.map_cons, List.prod_cons, mul_assoc]

/-- The caller multiplies the variables of the workers into its own. -/
theorem foldl_workers (res : Nat → M) (nw : Nat) (var : M) :
    (List.range nw).foldl (fun v wid => v * res wid) var =
      var * ∏ wid ∈ Finset.range nw, res wid := by
  induction nw with
  | zero => simp
  | succ nw ih =>
    rw [List.range_succ, List.foldl_append, ih, List.foldl_cons, List.foldl_nil,
      Finset.prod_range_succ, mul_assoc]

/-- The product of the values of tasks. -/
theorem foldl_body (step : Int) (var : M) (tasks : List Task) :
    Loop.body step value var tasks =
      var * ((Task.run step tasks).map value).prod := by
  rw [Loop.body, foldl_mul, Task.run, Multiset.map_coe, Multiset.prod_coe]

/-- What each worker has of some tasks makes up what they are. -/
theorem prod_workers (step : Int) (nw : Nat) (inside : ∀ task ∈ tasks, task.worker < nw) :
    ∏ wid ∈ Finset.range nw,
        ((Task.run step (tasks.filter fun task => task.worker = wid)).map value).prod =
      ((Task.run step tasks).map value).prod := by
  simp only [run_eq_sum]
  rw [← sum_workers (fun task => (indices step task.start task.stop : Multiset Int)) nw inside,
    ← Multiset.coe_mapAddMonoidHom, map_sum, Multiset.prod_sum]

/-- A finished reduction over a loop gives what the sequential loop gives, for an operation whose
order does not matter. -/
theorem parallelReduce_sequential (reached : s.Reached) (fine : l.Fine) (done : l.Done s tasks s')
    (var : M) :
    Loop.reduce s'.nw l.step value var tasks =
      (indices l.step l.start l.stop).foldl (fun v idx => v * value idx) var := by
  obtain ⟨run, -, workers⟩ := done.sound reached.idle fine
  rw [foldl_mul]
  unfold Loop.reduce
  split_ifs with many
  · simp only [foldl_body, foldl_workers, one_mul]
    rw [prod_workers value l.step _ (workers.resolve_left (by omega)), run, Multiset.map_coe,
      Multiset.prod_coe]
  · rw [foldl_body, run, Multiset.map_coe, Multiset.prod_coe]

end Reductions

/-- A product over the four indices. -/
theorem parallelReduce_sequential_four :
    Loop.reduce 2 1 (fun idx => idx + 1) 5 [⟨0, 0, 1⟩, ⟨1, 2, 3⟩, ⟨0, 1, 2⟩, ⟨0, 3, 4⟩] =
      (120 : Int) := by
  obtain ⟨f, runs, nw_eq, done⟩ := loop_four
  have product := parallelReduce_sequential (fun idx : Int => idx + 1) (.make 2)
    ⟨by decide, by decide, by decide, by decide⟩ (.workers runs done) 5
  rw [nw_eq] at product
  exact product

end P3arsec.Fastflow
