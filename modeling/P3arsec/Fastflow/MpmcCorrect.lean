import P3arsec.Fastflow.MpmcQueue

/-!
# The queue of many producers and many consumers is a queue

A `push` takes effect when it gets its ticket and a `pop` when it gets its own, so the entries that
the queue holds are those between the two counters. A `pop` may fail although entries are there: the
`push` of the first one may have its ticket and not be complete.
-/

namespace P3arsec.Fastflow

open P3arsec.Lib
open P3arsec.Lib.Concurrent

variable {α π : Type} [DecidableEq π]

/-- What a party waits for. -/
def Worker.glance (log : List α) : Worker α → Glance (Operation α) (Answer α)
  | .idle => .idle
  | .pushing data | .pushLoaded data _ | .pushSwap data _ => .called (.push data) ∅
  | .writing _ _ | .publishing _ => .acted (.pushed true)
  | .popping | .popLoaded _ | .popSwap _ => .called .pop ∅
  | .reading pr | .freeing pr _ => .acted (.popped log[pr]?)
  | .returning answer => .acted answer

/-- The queue that a state stands for. -/
def Workers.Related (size : Nat) (state : Workers π α)
    (object : Witnessed π (List α) (Operation α) (Answer α)) : Prop :=
  state.queue.mask + 1 = size ∧ ∃ log, Ticketed state.queue state.worker log ∧
    object = ⟨log.drop state.queue.pread, fun p => (state.worker p).glance log⟩

namespace Workers

variable {q q' : MpmcQueue α} {worker : π → Worker α} {log : List α} {p : π} {next : Worker α}

/-- What the parties wait for behind a step of one of them. -/
theorem glance_update :
    (fun p' => (Function.update worker p next p').glance log) =
      Function.update (fun p' => (worker p').glance log) p (next.glance log) := by
  funext p'
  by_cases same : p' = p
  · rw [same, Function.update_self, Function.update_self]
  · rw [Function.update_of_ne same, Function.update_of_ne same]

/-- A step that does not change what the party waits for. -/
theorem glance_same (same : next.glance log = (worker p).glance log) :
    (fun p' => (Function.update worker p next p').glance log) =
      fun p' => (worker p').glance log := by
  rw [glance_update, same, Function.update_eq_self]

omit [DecidableEq π] in
/-- A longer log has the entries of the tickets that are given out. -/
theorem glance_append (known : Ticketed q worker log) (data : α) (p' : π) :
    (worker p').glance (log ++ [data]) = (worker p').glance log := by
  have below := known.pops p'
  have length_eq := known.length_eq
  have pread_le := known.pread_le
  cases at_ : worker p' <;> rw [at_] at below <;> simp only [Worker.glance, Worker.pops] at below ⊢
  case reading pr =>
    have inside := (below pr rfl).1
    rw [List.getElem?_append_left (by omega)]
  case freeing pr data =>
    have inside := (below pr rfl).1
    rw [List.getElem?_append_left (by omega)]

/-- A party that decides on an answer takes effect. -/
theorem decided (p : π) (next : Worker α) {size : Nat} {value value' : List α}
    {operation : Operation α} {answer : Answer α}
    (before : (worker p).glance log = .called operation ∅)
    (behind : next.glance log = .acted answer) (does : MayFail size value operation answer value') :
    Witnessed.Step (MayFail size) ⟨value, fun p => (worker p).glance log⟩ none
      ⟨value', fun p' => (Function.update worker p next p').glance log⟩ := by
  rw [glance_update, behind]
  exact .act before does

/-- A step of a party without an event is matched by at most one step of the queue. -/
def Matched (size : Nat) (object : Witnessed π (List α) (Operation α) (Answer α))
    (next : Workers π α) : Prop :=
  ∃ object', (object' = object ∨ Witnessed.Step (MayFail size) object none object') ∧
    Related size next object'

/-- A step behind which the party waits for the same leaves the object as it is. -/
theorem quiet_matched {q'' : MpmcQueue α} {turned : Worker α}
    (moves : some (turned, q'') = some (next, q')) (mask : q''.mask = q.mask)
    (pread : q''.pread = q.pread) (kept : Ticketed q'' (Function.update worker p turned) log)
    (same : turned.glance log = (worker p).glance log) :
    Matched (q.mask + 1) ⟨log.drop q.pread, fun p => (worker p).glance log⟩
      ⟨q', Function.update worker p next⟩ := by
  obtain ⟨rfl, rfl⟩ := (Prod.mk.injEq ..).mp (Option.some.inj moves)
  refine ⟨_, .inl rfl, by rw [mask], log, kept, ?_⟩
  dsimp only
  rw [glance_same same, pread]

/-- A party takes the place behind the queue: its `push` takes effect. -/
theorem takePush_matched {data : α} (known : Ticketed q worker log)
    (at_ : worker p = .pushSwap data q.pwrite) :
    Matched (q.mask + 1) ⟨log.drop q.pread, fun p => (worker p).glance log⟩
      ⟨{ q with pwrite := q.pwrite + 1 }, Function.update worker p (.writing data q.pwrite)⟩ := by
  obtain ⟨room, kept⟩ := known.takePush at_
  have length_eq := known.length_eq
  have pread_le := known.pread_le
  have fits : (log.drop q.pread).length < q.mask + 1 := by
    rw [List.length_drop]
    omega
  refine ⟨_, .inr (decided p (.writing data q.pwrite) (by rw [at_]; rfl) rfl
    (.pushed fits)), rfl, _, kept, ?_⟩
  dsimp only
  rw [List.drop_append_of_le_length (by omega)]
  congr 1
  funext p'
  by_cases same : p' = p
  · rw [same, Function.update_self]
    rfl
  · rw [Function.update_of_ne same, glance_append known]

/-- A party takes the first place of the queue: its `pop` takes effect. -/
theorem takePop_matched (known : Ticketed q worker log) (at_ : worker p = .popSwap q.pread) :
    Matched (q.mask + 1) ⟨log.drop q.pread, fun p => (worker p).glance log⟩
      ⟨{ q with pread := q.pread + 1 }, Function.update worker p (.reading q.pread)⟩ := by
  obtain ⟨below, kept⟩ := known.takePop at_
  have inside : q.pread < log.length := by rw [known.length_eq]; exact below
  have entry : log.drop q.pread = log[q.pread] :: log.drop (q.pread + 1) :=
    List.drop_eq_getElem_cons inside
  rw [entry]
  refine ⟨_, .inr (decided p (.reading q.pread) (by rw [at_]; rfl) ?_ .popped),
    rfl, _, kept, rfl⟩
  simp only [Worker.glance]
  rw [List.getElem?_eq_getElem inside]

/-- The step of a party is matched. -/
theorem act_matched {size : Nat} {succeeds : Bool} {object : Witnessed π (List α) _ _}
    (moves : q.act succeeds (worker p) = some (next, q'))
    (related : Related size ⟨q, worker⟩ object) :
    Matched size object ⟨q', Function.update worker p next⟩ := by
  obtain ⟨rfl, log, known, rfl⟩ := related
  dsimp only at known ⊢
  have said := known.knows p
  cases at_ : worker p with
  | idle => rw [at_] at moves; cases moves
  | returning => rw [at_] at moves; cases moves
  | pushing data =>
    rw [at_] at moves
    exact quiet_matched moves rfl rfl (known.turn (by simp [at_, Worker.pushes])
      (by simp [at_, Worker.pops]) le_rfl) (by rw [at_]; rfl)
  | pushLoaded data pw =>
    rw [at_] at moves said
    simp only [MpmcQueue.act, known.mask_eq] at moves
    split_ifs at moves with free full
    · exact quiet_matched moves rfl rfl (known.turn (by simp [at_, Worker.pushes])
        (by simp [at_, Worker.pops]) ⟨said, fun _ => free.symm⟩) (by rw [at_]; rfl)
    · obtain ⟨rfl, rfl⟩ := (Prod.mk.injEq ..).mp (Option.some.inj moves)
      exact ⟨_, .inr (decided p _ (by rw [at_]; rfl) rfl .refused), rfl, log,
        known.turn (by simp [at_, Worker.pushes]) (by simp [at_, Worker.pops]) trivial, rfl⟩
    · exact quiet_matched moves rfl rfl (known.turn (by simp [at_, Worker.pushes])
        (by simp [at_, Worker.pops]) trivial) (by rw [at_]; rfl)
  | pushSwap data pw =>
    rw [at_] at moves
    simp only [MpmcQueue.act] at moves
    split_ifs at moves with swaps
    · obtain ⟨rfl, -⟩ := swaps
      obtain ⟨rfl, rfl⟩ := (Prod.mk.injEq ..).mp (Option.some.inj moves)
      exact takePush_matched known at_
    · exact quiet_matched moves rfl rfl (known.turn (by simp [at_, Worker.pushes])
        (by simp [at_, Worker.pops]) trivial) (by rw [at_]; rfl)
  | writing data pw =>
    rw [at_] at moves
    simp only [MpmcQueue.act, known.mask_eq] at moves
    exact quiet_matched moves rfl rfl (known.write at_) (by rw [at_]; rfl)
  | publishing pw =>
    rw [at_] at moves
    simp only [MpmcQueue.act, known.mask_eq] at moves
    exact quiet_matched moves rfl rfl (known.publish at_) (by rw [at_]; rfl)
  | popping =>
    rw [at_] at moves
    exact quiet_matched moves rfl rfl (known.turn (by simp [at_, Worker.pushes])
      (by simp [at_, Worker.pops]) le_rfl) (by rw [at_]; rfl)
  | popLoaded pr =>
    rw [at_] at moves said
    simp only [MpmcQueue.act, known.mask_eq] at moves
    split_ifs at moves with there empty
    · exact quiet_matched moves rfl rfl (known.turn (by simp [at_, Worker.pushes])
        (by simp [at_, Worker.pops]) ⟨said, fun _ => by omega⟩) (by rw [at_]; rfl)
    · obtain ⟨rfl, rfl⟩ := (Prod.mk.injEq ..).mp (Option.some.inj moves)
      exact ⟨_, .inr (decided p _ (by rw [at_]; rfl) rfl .failed), rfl, log,
        known.turn (by simp [at_, Worker.pushes]) (by simp [at_, Worker.pops]) trivial, rfl⟩
    · exact quiet_matched moves rfl rfl (known.turn (by simp [at_, Worker.pushes])
        (by simp [at_, Worker.pops]) trivial) (by rw [at_]; rfl)
  | popSwap pr =>
    rw [at_] at moves
    simp only [MpmcQueue.act] at moves
    split_ifs at moves with swaps
    · obtain ⟨rfl, -⟩ := swaps
      obtain ⟨rfl, rfl⟩ := (Prod.mk.injEq ..).mp (Option.some.inj moves)
      exact takePop_matched known at_
    · exact quiet_matched moves rfl rfl (known.turn (by simp [at_, Worker.pushes])
        (by simp [at_, Worker.pops]) trivial) (by rw [at_]; rfl)
  | reading pr =>
    rw [at_] at moves said
    simp only [MpmcQueue.act, known.mask_eq] at moves
    exact quiet_matched moves rfl rfl (known.turn (by simp [at_, Worker.pushes])
      (by simp [at_, Worker.pops]) said) (by rw [at_]; rfl)
  | freeing pr data =>
    rw [at_] at moves said
    simp only [MpmcQueue.act, known.mask_eq] at moves
    have entry : data = log[pr]? := said
    exact quiet_matched moves rfl rfl (known.free at_) (by rw [at_, entry]; rfl)

/-- Every step is matched by at most one step of the queue. -/
theorem step_matched {size : Nat} (state : Workers π α)
    (event : Option (Event π (Operation α) (Answer α))) (next : Workers π α)
    (object : Witnessed π (List α) (Operation α) (Answer α))
    (related : Related size state object) (moves : Step state event next) :
    ∃ object', (object' = object ∧ event = none ∨
      Witnessed.Step (MayFail size) object event object') ∧ Related size next object' := by
  cases moves with
  | act moves =>
    obtain ⟨object', same | acts, related'⟩ := act_matched moves related
    · exact ⟨object', .inl ⟨same, rfl⟩, related'⟩
    · exact ⟨object', .inr acts, related'⟩
  | push data waits =>
    obtain ⟨sized, log, known, rfl⟩ := related
    dsimp only at sized known
    refine ⟨_, .inr (.call (by dsimp only; rw [waits]; rfl)), sized, log,
      known.turn (by simp [waits, Worker.pushes]) (by simp [waits, Worker.pops]) trivial, ?_⟩
    dsimp only
    rw [glance_update]
    rfl
  | pop waits =>
    obtain ⟨sized, log, known, rfl⟩ := related
    dsimp only at sized known
    refine ⟨_, .inr (.call (by dsimp only; rw [waits]; rfl)), sized, log,
      known.turn (by simp [waits, Worker.pushes]) (by simp [waits, Worker.pops]) trivial, ?_⟩
    dsimp only
    rw [glance_update]
    rfl
  | answer waits =>
    obtain ⟨sized, log, known, rfl⟩ := related
    dsimp only at sized known
    refine ⟨_, .inr (.answer (by dsimp only; rw [waits]; rfl)), sized, log,
      known.turn (by simp [waits, Worker.pushes]) (by simp [waits, Worker.pops]) trivial, ?_⟩
    dsimp only
    rw [glance_update]
    rfl

end Workers

/-- What `isPowerOf2` recognises. -/
theorem exists_pow_of_isPowerOf2 {x : Nat} (below : x < 2 ^ 32) (said : isPowerOf2 x = true) :
    ∃ k, x = 2 ^ k := by
  simp only [isPowerOf2, Nat.mod_eq_of_lt below, Bool.and_eq_true, bne_iff_ne, ne_eq,
    beq_iff_eq] at said
  obtain ⟨filled, disjoint⟩ := said
  refine ⟨x.log2, ?_⟩
  by_contra other
  have low := Nat.log2_self_le filled
  have high := @Nat.lt_log2_self x
  have bit : x.testBit x.log2 = true :=
    Nat.testBit_of_two_pow_le_and_two_pow_add_one_gt low high
  have bit' : (x - 1).testBit x.log2 = true :=
    Nat.testBit_of_two_pow_le_and_two_pow_add_one_gt (by omega) (by omega)
  have both := Nat.testBit_and x (x - 1) x.log2
  rw [disjoint, bit, bit', Nat.zero_testBit] at both
  cases both

/-- The loop of `nextPowerOf2` ends at a power of two that is large enough. -/
theorem nextPowerOf2_spec (x : Nat) : ∀ fuel k, x ≤ 2 ^ k + fuel →
    ∃ k', nextPowerOf2 x fuel (2 ^ k) = 2 ^ k' ∧ x ≤ 2 ^ k'
  | 0, k, reach => ⟨k, rfl, reach⟩
  | fuel + 1, k, reach => by
    unfold nextPowerOf2
    split_ifs with more
    · rw [← Nat.pow_succ']
      refine nextPowerOf2_spec x fuel (k + 1) ?_
      have positive := Nat.two_pow_pos k
      rw [Nat.pow_succ]
      omega
    · exact ⟨k, rfl, by omega⟩

/-- `init` makes at least two cells, and a power of two of them. -/
theorem MpmcQueue.init_mask (size : Nat) (below : size < 2 ^ 32) :
    ∃ k, 2 ≤ 2 ^ k ∧ (init size : MpmcQueue α).mask = 2 ^ k - 1 := by
  simp only [init]
  generalize eq : (if size < 2 then 2 else size) = wanted
  have two_le : 2 ≤ wanted := by rw [← eq]; split <;> omega
  have wanted_lt : wanted < 2 ^ 32 := by rw [← eq]; split <;> omega
  split_ifs with said
  · obtain ⟨k, rfl⟩ := exists_pow_of_isPowerOf2 wanted_lt said
    exact ⟨k, two_le, rfl⟩
  · obtain ⟨k, reached, enough⟩ := nextPowerOf2_spec wanted wanted 0 (by omega)
    rw [pow_zero] at reached
    exact ⟨k, two_le.trans enough, by rw [reached]⟩

omit [DecidableEq π] in
/-- The queue of `init` stands for the empty queue. -/
theorem Workers.init_related (size : Nat) (below : size < 2 ^ 32) :
    Workers.Related ((MpmcQueue.init size : MpmcQueue α).mask + 1)
      (⟨MpmcQueue.init size, fun _ => .idle⟩ : Workers π α) (Witnessed.fresh []) := by
  obtain ⟨k, two_le, mask⟩ := MpmcQueue.init_mask (α := α) size below
  have cells : (MpmcQueue.init size : MpmcQueue α).mask + 1 = 2 ^ k := by omega
  refine ⟨rfl, [], {
    two_le := by dsimp only; omega
    mask_eq := fun t => by
      dsimp only
      rw [cells, mask, Nat.and_two_pow_sub_one_eq_mod]
    length_eq := rfl
    pread_le := le_rfl
    room := Nat.zero_le _
    knows := fun _ => trivial
    pushes := fun _ _ absurd_ => absurd_.elim
    pops := fun _ _ absurd_ => absurd_.elim
    push_unique := fun _ _ _ absurd_ => absurd_.elim
    pop_unique := fun _ _ _ absurd_ => absurd_.elim
    waiting := fun _ _ absurd_ => absurd absurd_ (Nat.not_lt_zero _)
    taken := fun _ absurd_ => absurd absurd_ (Nat.not_lt_zero _)
    stored := fun t said => ?_
    first := fun _ _ => le_rfl }, rfl⟩
  -- a number that is its own remainder is not the next one of an equal remainder
  have said : t % ((MpmcQueue.init size : MpmcQueue α).mask + 1) = t + 1 := said
  have mod_le := Nat.mod_le t ((MpmcQueue.init size : MpmcQueue α).mask + 1)
  omega

/-- Whatever the interleaving of any number of parties, the calls answer as those of a queue do
that take effect at once, apart from calls that fail. -/
theorem mpmcQueue_linearizable (size : Nat) (below : size < 2 ^ 32) :
    Linearizable (MayFail ((MpmcQueue.init size : MpmcQueue α).mask + 1)) ([] : List α)
      Workers.Step (⟨MpmcQueue.init size, fun _ => .idle⟩ : Workers π α) :=
  Witnessed.linearizable (Workers.Related _) (Workers.init_related size below)
    Workers.step_matched

/-- A queue for ten entries and three parties. -/
theorem mpmcQueue_ten :
    Linearizable (MayFail ((MpmcQueue.init 10 : MpmcQueue Nat).mask + 1)) ([] : List Nat)
      Workers.Step ⟨MpmcQueue.init 10, fun _ : Fin 3 => .idle⟩ :=
  mpmcQueue_linearizable 10 (by decide)

/-- A `push` is about to fail. -/
def Workers.Refusing (state : Workers π α) (p : π) : Prop :=
  ∃ data pw, state.worker p = .pushLoaded data pw ∧
    state.queue.seq (pw &&& state.queue.mask) < pw

/-- A `pop` is about to fail. -/
def Workers.Failing (state : Workers π α) (p : π) : Prop :=
  ∃ pr, state.worker p = .popLoaded pr ∧ state.queue.seq (pr &&& state.queue.mask) < pr + 1

section Failures

variable {q : MpmcQueue α} {worker : π → Worker α} {log : List α} {p : π}

omit [DecidableEq π] in
/-- Where a `push` fails the cells are all in use, or a `pop` is not complete. -/
theorem Ticketed.of_refusing (known : Ticketed q worker log)
    (refusing : Workers.Refusing ⟨q, worker⟩ p) :
    q.pwrite = q.pread + (q.mask + 1) ∨ ∃ p' t, (worker p').pops t := by
  obtain ⟨data, pw, at_load, before⟩ := refusing
  dsimp only at at_load before
  have said := known.knows p
  rw [at_load] at said
  rw [known.mask_eq] at before
  have at_end : pw = q.pwrite := by
    by_contra other
    have below : pw < q.pwrite := by
      have : pw ≤ q.pwrite := said
      omega
    rcases Nat.lt_or_ge pw q.pread with gone | there
    · rcases known.taken pw gone with ⟨p', owned⟩ | free
      · have := (known.pops p' pw owned).2
        omega
      · omega
    · rcases known.waiting pw there below with ⟨p', owned⟩ | ⟨stored, -⟩
      · have := (known.pushes p' pw owned).2
        omega
      · omega
  subst at_end
  have two_le := known.two_le
  have room := known.room
  rcases Nat.lt_or_ge q.pwrite (q.mask + 1) with early | late
  · have first := known.first _ early
    rw [Nat.mod_eq_of_lt early] at before
    omega
  · obtain ⟨t, eq⟩ : ∃ t, q.pwrite = t + (q.mask + 1) := ⟨q.pwrite - (q.mask + 1), by omega⟩
    rw [eq, Nat.add_mod_right] at before
    rcases Nat.lt_or_ge t q.pread with gone | there
    · rcases known.taken t gone with ⟨p', owned⟩ | free
      · exact .inr ⟨p', t, owned⟩
      · omega
    · exact .inl (by omega)

omit [DecidableEq π] in
/-- Where a `pop` fails there is no entry, or a `push` is not complete. -/
theorem Ticketed.of_failing (known : Ticketed q worker log)
    (failing : Workers.Failing ⟨q, worker⟩ p) :
    q.pwrite = q.pread ∨ ∃ p', (worker p').pushes q.pread := by
  obtain ⟨pr, at_load, before⟩ := failing
  dsimp only at at_load before
  have said := known.knows p
  rw [at_load] at said
  rw [known.mask_eq] at before
  have at_first : pr = q.pread := by
    by_contra other
    have gone : pr < q.pread := by
      have : pr ≤ q.pread := said
      omega
    rcases known.taken pr gone with ⟨p', owned⟩ | free
    · have := (known.pops p' pr owned).2
      omega
    · omega
  subst at_first
  have pread_le := known.pread_le
  rcases Nat.lt_or_ge q.pread q.pwrite with some_left | none_left
  · rcases known.waiting q.pread le_rfl some_left with owned | ⟨stored, -⟩
    · exact .inr owned
    · omega
  · exact .inl (by omega)

end Failures

/-- A `push` fails only while the queue that answers the calls is full or a `pop` has taken effect
and not returned; a `pop` fails only while that queue is empty or a `push` has taken effect and not
returned. -/
theorem mpmcQueue_failures (size : Nat) (below : size < 2 ^ 32)
    (history : List (Event π (Operation α) (Answer α))) (state : Workers π α)
    (run : History Workers.Step (⟨MpmcQueue.init size, fun _ => .idle⟩ : Workers π α) history
      state) :
    ∃ object : Object π (List α) (Operation α) (Answer α),
      History (Object.Step (MayFail ((MpmcQueue.init size : MpmcQueue α).mask + 1)))
        (Object.fresh []) history object ∧
      (∀ p, state.Refusing p → object.value.length = (MpmcQueue.init size : MpmcQueue α).mask + 1 ∨
        ∃ p' data, object.phase p' = .acted (.popped data)) ∧
      ∀ p, state.Failing p → object.value = [] ∨
        ∃ p', object.phase p' = .acted (.pushed true) := by
  obtain ⟨object, related, reference⟩ := Witnessed.matched
    (Workers.init_related (α := α) (π := π) size below) Workers.step_matched run
  obtain ⟨sized, log, known, rfl⟩ := related
  refine ⟨_, reference, fun p refusing => ?_, fun p failing => ?_⟩
  · rcases known.of_refusing refusing with full | ⟨p', t, owned⟩
    · refine .inl ?_
      dsimp only
      rw [List.length_drop, known.length_eq, full, sized]
      omega
    · refine .inr ⟨p', log[t]?, ?_⟩
      dsimp only
      cases at_ : state.worker p' <;> rw [at_] at owned <;> simp only [Worker.pops] at owned
      case reading => rw [← owned]; rfl
      case freeing => rw [← owned]; rfl
  · rcases known.of_failing failing with empty | ⟨p', owned⟩
    · refine .inl ?_
      dsimp only
      exact List.drop_eq_nil_of_le (by rw [known.length_eq, empty])
    · refine .inr ⟨p', ?_⟩
      dsimp only
      cases at_ : state.worker p' <;> rw [at_] at owned <;> simp only [Worker.pushes] at owned
      case writing => rfl
      case publishing => rfl

/-- One of three parties calls `pop` and is about to fail on the empty queue. -/
theorem mpmcQueue_failures_pop : ∃ state : Workers (Fin 3) Nat, state.Failing 0 ∧
    ∃ object : Object (Fin 3) (List Nat) (Operation Nat) (Answer Nat),
      History (Object.Step (MayFail ((MpmcQueue.init 10 : MpmcQueue Nat).mask + 1)))
        (Object.fresh []) [.call 0 .pop] object ∧
      (∀ p, state.Refusing p → object.value.length = (MpmcQueue.init 10 : MpmcQueue Nat).mask + 1 ∨
        ∃ p' data, object.phase p' = .acted (.popped data)) ∧
      ∀ p, state.Failing p → object.value = [] ∨
        ∃ p', object.phase p' = .acted (.pushed true) := by
  have loads : (MpmcQueue.init 10 : MpmcQueue Nat).act true
      (Function.update (fun _ : Fin 3 => Worker.idle) 0 .popping 0) =
        some (.popLoaded 0, MpmcQueue.init 10) := rfl
  exact ⟨⟨MpmcQueue.init 10, Function.update (Function.update (fun _ => .idle) 0 .popping) 0
    (.popLoaded 0)⟩, ⟨0, by simp, by decide⟩, mpmcQueue_failures 10 (by decide) _ _
      ((History.start.step (Workers.Step.pop rfl)).step (Workers.Step.act loads))⟩

end P3arsec.Fastflow
