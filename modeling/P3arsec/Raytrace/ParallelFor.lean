import P3arsec.Lib.Chunks
import P3arsec.Lib.Crew
import P3arsec.Lib.Descent
import P3arsec.Lib.Run

/-!
# The parallel loop of the actor versions

`pfor_act` cuts a range into chunks, sends each of them to a worker, and answers the request when it
has counted down the replies that it expects. Three versions compute the chunks and the number of
replies before they send anything. Each of them serves a request when the chunks that it sends are
as many as the replies that it expects and make up the range (`Handler.Even.serves`), and in no
other case (`Handler.Cut.complete`).
-/

namespace P3arsec.Raytrace.ParallelFor

open P3arsec.Lib

/-- The calls of `fun` that a `pfor_worker` makes for a message. -/
def pforWorker (start stop : Nat) : List Nat := List.range' start (stop - start)

/-- What a version of `pfor_act` computes for a request. -/
structure Handler where
  /-- `chunk`, or `grain`. -/
  chunk : Nat
  /-- `plus`. -/
  plus : Nat
  /-- The number of replies that `n_res` starts with. -/
  nRes : Nat
  /-- The test of the loop that sends the chunks, of `p_start` and the counter of the loop. -/
  more : Nat → Nat → Bool
  /-- How the counter of the loop goes on, where this is defined. -/
  advance : Nat → Option Nat

/-- The first version, with `nw` workers. -/
def pforActV1 (nw start stop : Nat) : Handler :=
  let nv := stop - start
  { chunk := nv / nw
    plus := nv % nw
    nRes := nw
    more := fun pStart _ => pStart < stop
    advance := fun iw => some ((iw + 1) % 2 ^ 32 % nw) }

/-- The second version, which spawns a worker for each chunk. The counter of its loop is `int`. -/
def pforActV2 (start stop grain : Nat) : Handler :=
  let nv := stop - start
  let nw := nv / grain
  { chunk := grain
    plus := nv % grain
    nRes := nw
    more := fun _ i => i < nw
    advance := fun i => if i + 1 < 2 ^ 31 then some (i + 1) else none }

/-- The third version. It has `worker` workers when the request comes, and spawns more of them where
there are fewer than chunks. -/
def pforActV3 (worker start stop grain : Nat) : Handler :=
  let nv := stop - start
  let wSpawn := nv / grain
  let nw := max worker wSpawn
  { chunk := grain
    plus := nv % grain
    nRes := nw
    more := fun pStart _ => pStart < stop
    advance := fun iw => some ((iw + 1) % 2 ^ 32 % nw) }

/-- A request that is being served. -/
structure State where
  /-- `p_start`. -/
  pStart : Nat
  /-- What is left of `plus`. -/
  plus : Nat
  /-- The counter of the loop, which is also the worker that gets the next chunk. -/
  i : Nat
  /-- `n_res`. -/
  nRes : Nat
  /-- The workers, and the calls of `fun` that have returned. -/
  crew : Crew Nat
  /-- The replies of the workers in the mailbox of the actor. -/
  replies : Nat
  /-- How often the promise has been delivered. -/
  delivered : Nat

/-- What the parties do. -/
inductive Event where
  /-- The handler sends a chunk. -/
  | send
  /-- A worker takes a message. -/
  | begin (w : Nat)
  /-- A worker calls `fun`. -/
  | call (w : Nat)
  /-- A worker replies. -/
  | finish (w : Nat)
  /-- The callback takes a reply, once the handler has returned. -/
  | update

namespace Handler

/-- The state when a request comes. -/
def initial (handler : Handler) (start : Nat) : State where
  pStart := start
  plus := handler.plus
  i := 0
  nRes := handler.nRes
  crew := {}
  replies := 0
  delivered := 0

/-- The end of the next chunk. -/
def pEnd (handler : Handler) (state : State) : Nat :=
  (state.pStart + handler.chunk + if 0 < state.plus then 1 else 0) % 2 ^ 64

/-- What an event does. -/
def act (handler : Handler) : Event → State → Option State
  | .send, state =>
    if handler.more state.pStart state.i then
      (handler.advance state.i).map fun i =>
        { state with
          pStart := handler.pEnd state
          plus := state.plus - 1
          i
          crew := state.crew.send state.i (pforWorker state.pStart (handler.pEnd state)) }
    else none
  | .begin w, state => (state.crew.begin w).map fun crew => { state with crew }
  | .call w, state => (state.crew.call w).map fun crew => { state with crew }
  | .finish w, state =>
    (state.crew.finish w).map fun crew => { state with crew, replies := state.replies + 1 }
  | .update, state =>
    if handler.more state.pStart state.i = false ∧ 0 < state.replies then
      let nRes := (state.nRes + (2 ^ 64 - 1)) % 2 ^ 64
      some
        { state with
          replies := state.replies - 1
          nRes
          delivered := if nRes = 0 then state.delivered + 1 else state.delivered }
    else none

/-- A step of a request that is being served. -/
def Step (handler : Handler) (state next : State) : Prop :=
  ∃ event, handler.act event state = some next

/-- A request for a range comes. -/
def Begins (handler : Handler) (start : Nat) (state : State) : Prop :=
  state = handler.initial start

/-- The states that a request for a range goes through. -/
def Reaches (handler : Handler) (start : Nat) : State → Prop :=
  Reachable (handler.Begins start) handler.Step

/-- A request for a range is served. -/
structure Serves (handler : Handler) (start stop : Nat) : Prop where
  /-- `fun` is called on indices of the range. -/
  inside : ∀ state, handler.Reaches start state → ∀ i ∈ state.crew.called, start ≤ i ∧ i < stop
  /-- `fun` is not called twice on an index. -/
  nodup : ∀ state, handler.Reaches start state → state.crew.called.Nodup
  /-- The request is answered once. -/
  once : ∀ state, handler.Reaches start state → state.delivered ≤ 1
  /-- When the request is answered `fun` has been called on all indices. -/
  after : ∀ state, handler.Reaches start state → 0 < state.delivered →
    ∀ i, start ≤ i → i < stop → i ∈ state.crew.called
  /-- A run that cannot go on has answered the request. -/
  answered : ∀ state, handler.Reaches start state → (∀ next, ¬handler.Step state next) →
    state.delivered = 1
  /-- No run goes on forever. -/
  ends : ¬∃ run : Nat → State, handler.Begins start (run 0) ∧
    ∀ i, handler.Step (run i) (run (i + 1))

/-- Where a chunk begins. -/
def offset (handler : Handler) (k : Nat) : Nat := Chunks.offset handler.chunk handler.plus k

/-- A number of chunks follow one another from the begin of a range, and go to workers below a
number. -/
structure Cut (handler : Handler) (start n count : Nat) (index : Nat → Nat) : Prop where
  /-- The end of the last chunk is a `size_t`. -/
  fits : start + handler.offset count < 2 ^ 64
  /-- So is the number of replies. -/
  nRes_lt : handler.nRes < 2 ^ 64
  index_zero : index 0 = 0
  index_lt : ∀ k < count, index k < n
  advance_eq : ∀ k < count, handler.advance (index k) = some (index (k + 1))
  more_eq : ∀ k ≤ count, handler.more (start + handler.offset k) (index k) = decide (k < count)

/-- The chunks make up a range and are as many as the replies that are expected. -/
structure Even (handler : Handler) (start stop n count : Nat) (index : Nat → Nat) : Prop where
  cut : handler.Cut start n count index
  chunk_pos : 0 < handler.chunk
  nRes_eq : handler.nRes = count
  /-- There is a chunk. -/
  positive : 0 < count
  /-- The last chunk ends with the range. -/
  stop_eq : start + handler.offset count = stop

/-- What holds while a request is being served, after a number of chunks. -/
structure Inv (handler : Handler) (start n count : Nat) (index : Nat → Nat) (sent : Nat)
    (state : State) : Prop where
  sent_le : sent ≤ count
  pStart_eq : state.pStart = start + handler.offset sent
  plus_eq : state.plus = handler.plus - sent
  i_eq : state.i = index sent
  within : state.crew.Within n
  accounts_eq : state.crew.accounts n = (List.range' start (handler.offset sent) : Multiset Nat)
  /-- A reply comes for a chunk that has been sent. -/
  replies_le : state.crew.jobs n + state.replies ≤ sent
  /-- `n_res` counts the replies that are still expected. When it has become zero, no more than
  the chunks have been expected. -/
  counts : state.delivered = 0 ∧ (0 < handler.nRes → 0 < state.nRes) ∧
      state.nRes + sent = handler.nRes + state.crew.jobs n + state.replies ∨
    0 < sent ∧ sent = count ∧ handler.nRes + state.crew.jobs n + state.replies ≤ sent ∧
      (handler.nRes = sent → state.delivered = 1)

variable {handler : Handler} {start stop n count sent : Nat} {index : Nat → Nat}
  {state next : State}

/-- The first chunk begins with the range. -/
@[simp] theorem offset_zero : handler.offset 0 = 0 := Chunks.offset_zero

/-- The next chunk begins where one ends. -/
theorem offset_succ (k : Nat) :
    handler.offset (k + 1) =
      handler.offset k + handler.chunk + if 0 < handler.plus - k then 1 else 0 :=
  Chunks.offset_succ

namespace Cut

/-- The chunks end before the last one. -/
theorem offset_le {k : Nat} (known : k ≤ count) : handler.offset k ≤ handler.offset count :=
  Chunks.offset_mono known

/-- The next chunk ends where the one after it begins. -/
theorem pEnd_eq (cut : handler.Cut start n count index)
    (inv : handler.Inv start n count index sent state) (known : sent < count) :
    handler.pEnd state = start + handler.offset (sent + 1) := by
  have inside : handler.offset (sent + 1) ≤ handler.offset count := offset_le known
  have fits := cut.fits
  have succ := handler.offset_succ sent
  unfold pEnd
  rw [inv.pStart_eq, inv.plus_eq, Nat.mod_eq_of_lt] <;> omega

/-- The invariant holds when a request comes. -/
theorem initial_inv (cut : handler.Cut start n count index) :
    handler.Inv start n count index 0 (handler.initial start) where
  sent_le := count.zero_le
  pStart_eq := by simp [initial]
  plus_eq := rfl
  i_eq := cut.index_zero.symm
  within := Crew.within_new
  accounts_eq := by simp [initial]
  replies_le := by simp [initial]
  counts := .inl ⟨rfl, id, by simp [initial]⟩

/-- A chunk that is sent keeps the invariant. -/
theorem send_inv (cut : handler.Cut start n count index)
    (inv : handler.Inv start n count index sent state)
    (sends : handler.act .send state = some next) :
    sent < count ∧ handler.Inv start n count index (sent + 1) next := by
  simp only [act] at sends
  split at sends
  case isFalse => cases sends
  rename_i more
  rw [inv.pStart_eq, inv.i_eq, cut.more_eq sent inv.sent_le, decide_eq_true_eq] at more
  rw [cut.pEnd_eq inv more, inv.i_eq, cut.advance_eq sent more] at sends
  cases sends
  have inside := cut.index_lt sent more
  have succ := handler.offset_succ sent
  have jobs := Crew.jobs_send state.crew inside
    (pforWorker state.pStart (start + handler.offset (sent + 1)))
  refine ⟨more, more, rfl, ?_, rfl, Crew.within_send inv.within inside _, ?_, ?_, ?_⟩
  · dsimp only
    rw [inv.plus_eq, Nat.sub_sub]
  · have job : (List.range' start (handler.offset (sent + 1)) : Multiset Nat) =
        List.range' start (handler.offset sent) +
          pforWorker state.pStart (start + handler.offset (sent + 1)) := by
      rw [Multiset.coe_add, pforWorker, inv.pStart_eq, Nat.add_sub_add_left,
        ← Nat.add_sub_cancel' (show handler.offset sent ≤ handler.offset (sent + 1) by omega),
        Nat.add_sub_cancel_left, ← List.range'_append_1]
    rw [job, ← inv.accounts_eq]
    exact Crew.accounts_send inside _
  · have before := inv.replies_le
    dsimp only
    omega
  · have counts := inv.counts
    dsimp only
    omega

/-- The callback keeps the invariant. -/
theorem update_inv (cut : handler.Cut start n count index)
    (inv : handler.Inv start n count index sent state)
    (updates : handler.act .update state = some next) :
    handler.Inv start n count index sent next := by
  simp only [act] at updates
  split at updates
  case isFalse => cases updates
  rename_i ready
  obtain ⟨returned, some⟩ := ready
  rw [inv.pStart_eq, inv.i_eq, cut.more_eq sent inv.sent_le, decide_eq_false_iff_not] at returned
  cases updates
  have all := inv.sent_le
  have before := inv.replies_le
  have small := cut.nRes_lt
  refine ⟨inv.sent_le, inv.pStart_eq, inv.plus_eq, inv.i_eq, inv.within, inv.accounts_eq, ?_, ?_⟩
  · dsimp only
    omega
  rcases inv.counts with ⟨waiting, positive, same⟩ | ⟨first, last, less, answered⟩
  · dsimp only
    by_cases none : state.nRes = 0
    · -- no reply was expected
      exact .inr ⟨by omega, by omega, by omega, fun expected => by omega⟩
    have lower : (state.nRes + (2 ^ 64 - 1)) % 2 ^ 64 = state.nRes - 1 := by omega
    rw [lower]
    by_cases done : state.nRes - 1 = 0
    · rw [if_pos done]
      exact .inr ⟨by omega, by omega, by omega, fun _ => by omega⟩
    · rw [if_neg done]
      exact .inl ⟨waiting, fun _ => by omega, by omega⟩
  · exact .inr ⟨first, last, by dsimp only; omega, fun expected => by omega⟩

/-- A worker changes nothing but the crew and the replies. -/
theorem worker_inv (inv : handler.Inv start n count index sent state) {crew : Crew Nat}
    {replies : Nat} (within : crew.Within n) (accounts : crew.accounts n = state.crew.accounts n)
    (jobs : crew.jobs n + replies = state.crew.jobs n + state.replies) :
    handler.Inv start n count index sent { state with crew, replies } where
  sent_le := inv.sent_le
  pStart_eq := inv.pStart_eq
  plus_eq := inv.plus_eq
  i_eq := inv.i_eq
  within := within
  accounts_eq := accounts.trans inv.accounts_eq
  replies_le := jobs.trans_le inv.replies_le
  counts := by
    have counts := inv.counts
    dsimp only
    omega

/-- A step keeps the invariant. -/
theorem step_inv (cut : handler.Cut start n count index)
    (inv : handler.Inv start n count index sent state) (moves : handler.Step state next) :
    ∃ sent', handler.Inv start n count index sent' next := by
  obtain ⟨event, acts⟩ := moves
  cases event with
  | send => exact ⟨_, (cut.send_inv inv acts).2⟩
  | update => exact ⟨_, cut.update_inv inv acts⟩
  | begin w =>
    obtain ⟨crew, begins, rfl⟩ := Option.map_eq_some_iff.mp acts
    obtain ⟨inside, within⟩ := Crew.within_begin begins inv.within
    have jobs := Crew.jobs_begin begins inv.within
    exact ⟨sent, worker_inv inv within (Crew.accounts_begin begins inv.within) (by omega)⟩
  | call w =>
    obtain ⟨crew, calls, rfl⟩ := Option.map_eq_some_iff.mp acts
    obtain ⟨inside, within⟩ := Crew.within_call calls inv.within
    have jobs := Crew.jobs_call calls inv.within
    exact ⟨sent, worker_inv inv within (Crew.accounts_call calls inv.within) (by omega)⟩
  | finish w =>
    obtain ⟨crew, finishes, rfl⟩ := Option.map_eq_some_iff.mp acts
    obtain ⟨inside, within⟩ := Crew.within_finish finishes inv.within
    have jobs := Crew.jobs_finish finishes inv.within
    exact ⟨sent, worker_inv inv within (Crew.accounts_finish finishes inv.within) (by omega)⟩

/-- The invariant holds in every reached state. -/
theorem reaches_inv (cut : handler.Cut start n count index)
    (reaches : handler.Reaches start state) :
    ∃ sent, handler.Inv start n count index sent state := by
  induction reaches with
  | start begins =>
    obtain rfl := begins
    exact ⟨0, cut.initial_inv⟩
  | step _ moves ih =>
    obtain ⟨sent, inv⟩ := ih
    exact cut.step_inv inv moves

/-- Where there is no step all chunks have been sent, and all of them have been replied to. -/
theorem ended (cut : handler.Cut start n count index)
    (inv : handler.Inv start n count index sent state)
    (stuck : ∀ next, ¬handler.Step state next) :
    sent = count ∧ state.crew.jobs n = 0 ∧ state.replies = 0 := by
  have test := cut.more_eq sent inv.sent_le
  rw [← inv.pStart_eq, ← inv.i_eq] at test
  have all : sent = count := by
    by_contra apart
    have more : sent < count := lt_of_le_of_ne inv.sent_le apart
    have advance := cut.advance_eq sent more
    rw [← inv.i_eq] at advance
    have sends : (handler.act .send state).isSome := by
      simp [act, test, more, advance]
    obtain ⟨next, acts⟩ := Option.isSome_iff_exists.mp sends
    exact stuck next ⟨.send, acts⟩
  have returned : handler.more state.pStart state.i = false := by simpa [all] using test
  refine ⟨all, ?_, ?_⟩
  · by_contra busy
    obtain ⟨w, -, steps⟩ := Crew.exists_step (Nat.pos_of_ne_zero busy)
    rcases steps with steps | steps | steps
    · obtain ⟨crew, begins⟩ := Option.isSome_iff_exists.mp steps
      exact stuck _ ⟨.begin w, Option.map_eq_some_iff.mpr ⟨crew, begins, rfl⟩⟩
    · obtain ⟨crew, calls⟩ := Option.isSome_iff_exists.mp steps
      exact stuck _ ⟨.call w, Option.map_eq_some_iff.mpr ⟨crew, calls, rfl⟩⟩
    · obtain ⟨crew, finishes⟩ := Option.isSome_iff_exists.mp steps
      exact stuck _ ⟨.finish w, Option.map_eq_some_iff.mpr ⟨crew, finishes, rfl⟩⟩
  · by_contra replied
    exact stuck _ ⟨.update, if_pos ⟨returned, Nat.pos_of_ne_zero replied⟩⟩

/-- In a state without a job `fun` has been called on the indices of the chunks. -/
theorem mem_called (inv : handler.Inv start n count index sent state)
    (none : state.crew.jobs n = 0) {i : Nat} :
    i ∈ state.crew.called ↔ start ≤ i ∧ i < start + handler.offset sent := by
  rw [← Multiset.mem_coe, Crew.called_of_jobs none, inv.accounts_eq, Multiset.mem_coe,
    List.mem_range'_1]

/-- A request that is served is answered in a state without a step. -/
theorem exists_answered (served : handler.Serves start stop) :
    ∃ state, handler.Reaches start state ∧ (∀ next, ¬handler.Step state next) ∧
      state.delivered = 1 := by
  by_contra never
  refine served.ends ?_
  refine exists_infinite_run (handler.Reaches start) (fun state reaches => ?_)
    (show handler.Reaches start (handler.initial start) from .start rfl)
  by_contra stuck
  have none : ∀ next, ¬handler.Step state next := fun next moves =>
    stuck ⟨next, moves, .step reaches moves⟩
  exact never ⟨state, reaches, none, served.answered state reaches none⟩

/-- When a request is served, there is a chunk for each reply that is expected, and the chunks make
up the range. -/
theorem complete (cut : handler.Cut start n count index) (ordered : start ≤ stop)
    (served : handler.Serves start stop) :
    0 < count ∧ handler.nRes ≤ count ∧ start + handler.offset count = stop := by
  obtain ⟨state, reaches, stuck, answered⟩ := exists_answered served
  obtain ⟨sent, inv⟩ := cut.reaches_inv reaches
  obtain ⟨rfl, none, -⟩ := cut.ended inv stuck
  refine ⟨?_, ?_, le_antisymm ?_ ?_⟩
  · have counts := inv.counts
    omega
  · have counts := inv.counts
    omega
  · by_contra beyond
    have known := served.inside state reaches stop ((mem_called inv none).mpr (by omega))
    omega
  · by_contra short
    have known := served.after state reaches (by omega) (start + handler.offset sent) (by omega)
      (by omega)
    exact absurd ((mem_called inv none).mp known).2 (lt_irrefl _)

end Cut

namespace Even

/-- The number of steps that are left at most. -/
def measure (stop n : Nat) (state : State) : Nat :=
  7 * (stop - state.pStart) + 2 * state.crew.work n + state.replies

/-- A step lowers the measure. -/
theorem step_measure (even : handler.Even start stop n count index)
    (inv : handler.Inv start n count index sent state) (moves : handler.Step state next) :
    measure stop n next < measure stop n state := by
  unfold measure
  obtain ⟨event, acts⟩ := moves
  cases event with
  | send =>
    obtain ⟨more, inv'⟩ := even.cut.send_inv inv acts
    have inside := even.cut.index_lt sent more
    have last : handler.offset (sent + 1) ≤ handler.offset count := Cut.offset_le more
    have ends := even.stop_eq
    have succ := handler.offset_succ sent
    have positive := even.chunk_pos
    have begins := inv.pStart_eq
    have goesOn := inv'.pStart_eq
    have job := Crew.work_send state.crew inside (pforWorker state.pStart next.pStart)
    have same : next.crew = state.crew.send (index sent) (pforWorker state.pStart next.pStart) ∧
        next.replies = state.replies := by
      simp only [act] at acts
      split at acts
      case isFalse => cases acts
      obtain ⟨i, -, rfl⟩ := Option.map_eq_some_iff.mp acts
      rw [inv.i_eq]
      exact ⟨rfl, rfl⟩
    rw [same.1, same.2, job, pforWorker, List.length_range']
    omega
  | update =>
    simp only [act] at acts
    split at acts
    case isFalse => cases acts
    cases acts
    dsimp only
    omega
  | begin w =>
    obtain ⟨crew, begins, rfl⟩ := Option.map_eq_some_iff.mp acts
    have lower := Crew.work_begin begins inv.within
    dsimp only
    omega
  | call w =>
    obtain ⟨crew, calls, rfl⟩ := Option.map_eq_some_iff.mp acts
    have lower := Crew.work_call calls inv.within
    dsimp only
    omega
  | finish w =>
    obtain ⟨crew, finishes, rfl⟩ := Option.map_eq_some_iff.mp acts
    have lower := Crew.work_finish finishes inv.within
    dsimp only
    omega

/-- The calls are a part of the range. -/
theorem called_le (even : handler.Even start stop n count index)
    (inv : handler.Inv start n count index sent state) :
    (state.crew.called : Multiset Nat) ≤ List.range' start (stop - start) := by
  have part : (state.crew.called : Multiset Nat) ≤ List.range' start (handler.offset sent) := by
    rw [← inv.accounts_eq]
    exact Multiset.le_add_right _ _
  have inside : handler.offset sent ≤ handler.offset count := Cut.offset_le inv.sent_le
  have ends := even.stop_eq
  refine part.trans (Multiset.coe_le.mpr (List.Sublist.subperm ?_))
  exact List.range'_sublist_right.mpr (by omega)

/-- Chunks that make up the range and are as many as the replies that are expected serve the
request. -/
theorem serves (even : handler.Even start stop n count index) : handler.Serves start stop where
  inside state reaches i member := by
    obtain ⟨sent, inv⟩ := even.cut.reaches_inv reaches
    have known := Multiset.mem_of_le (even.called_le inv) (Multiset.mem_coe.mpr member)
    have ends := even.stop_eq
    rw [Multiset.mem_coe, List.mem_range'_1] at known
    omega
  nodup state reaches := by
    obtain ⟨sent, inv⟩ := even.cut.reaches_inv reaches
    exact Multiset.coe_nodup.mp
      (Multiset.nodup_of_le (even.called_le inv) (Multiset.coe_nodup.mpr List.nodup_range'))
  once state reaches := by
    obtain ⟨sent, inv⟩ := even.cut.reaches_inv reaches
    have counts := inv.counts
    have expected := even.nRes_eq
    omega
  after state reaches answered i low high := by
    obtain ⟨sent, inv⟩ := even.cut.reaches_inv reaches
    have expected := even.nRes_eq
    rcases inv.counts with ⟨waiting, -⟩ | ⟨-, rfl, none, -⟩
    · omega
    have ends := even.stop_eq
    exact (Cut.mem_called inv (by omega)).mpr (by omega)
  answered state reaches stuck := by
    obtain ⟨sent, inv⟩ := even.cut.reaches_inv reaches
    obtain ⟨all, idle, none⟩ := even.cut.ended inv stuck
    have counts := inv.counts
    have expected := even.nRes_eq
    have positive := even.positive
    omega
  ends := by
    refine Reachable.no_infinite_run (measure stop n) ?_
    intro state next reaches moves
    obtain ⟨sent, inv⟩ := even.cut.reaches_inv reaches
    exact even.step_measure inv moves

end Even

end Handler

/-- The worker that gets a chunk when `nw` workers take turns. -/
def turn (nw k : Nat) : Nat := (fun iw => (iw + 1) % 2 ^ 32 % nw)^[k] 0

/-- The workers that take turns are below their number. -/
theorem turn_lt {nw : Nat} (positive : 0 < nw) (k : Nat) : turn nw k < nw := by
  cases k with
  | zero => exact positive
  | succ k =>
    rw [turn, Function.iterate_succ_apply']
    exact Nat.mod_lt _ positive

/-- Chunks for workers that take turns, up to the first one that ends behind the range. -/
theorem cut_of_turns {handler : Handler} {start stop nw count : Nat} (positive : 0 < nw)
    (fits : start + handler.offset count < 2 ^ 64) (nRes : handler.nRes < 2 ^ 64)
    (last : stop ≤ start + handler.offset count)
    (before : ∀ k < count, start + handler.offset k < stop)
    (more : handler.more = fun pStart _ => decide (pStart < stop))
    (advance : handler.advance = fun iw => some ((iw + 1) % 2 ^ 32 % nw)) :
    handler.Cut start nw count (turn nw) where
  fits := fits
  nRes_lt := nRes
  index_zero := rfl
  index_lt k _ := turn_lt positive k
  advance_eq k _ := by
    rw [advance, turn, turn, Function.iterate_succ_apply']
  more_eq k known := by
    rw [more, decide_eq_decide]
    refine ⟨fun less => ?_, before k⟩
    rcases known.lt_or_eq with earlier | rfl
    · exact earlier
    · omega

/-- Chunks that make up the range, for workers that take turns. -/
theorem cut_of_total {handler : Handler} {start stop nw count : Nat} (positive : 0 < nw)
    (fits : stop < 2 ^ 64) (nRes : handler.nRes < 2 ^ 64) (plus : handler.plus ≤ count)
    (total : start + (count * handler.chunk + handler.plus) = stop)
    (enough : count ≤ count * handler.chunk + handler.plus)
    (more : handler.more = fun pStart _ => decide (pStart < stop))
    (advance : handler.advance = fun iw => some ((iw + 1) % 2 ^ 32 % nw)) :
    handler.Cut start nw count (turn nw) ∧ start + handler.offset count = stop := by
  have ends : start + handler.offset count = stop := by
    rw [Handler.offset, Chunks.offset_count plus, total]
  refine ⟨cut_of_turns positive (ends.trans_lt fits) nRes ends.ge (fun k known => ?_) more advance,
    ends⟩
  have less := (Chunks.offset_lt_iff known.le plus enough).mpr known
  rw [Handler.offset]
  omega

/-- The first version serves a request when there is an index for each worker. -/
theorem pforActV1_serves_iff {nw start stop : Nat} (fits : stop < 2 ^ 64) (positive : 0 < nw)
    (small : nw < 2 ^ 64) (ordered : start ≤ stop) :
    (pforActV1 nw start stop).Serves start stop ↔ nw ≤ stop - start := by
  constructor
  · intro served
    by_contra few
    -- each chunk is one index
    have chunk : (stop - start) / nw = 0 := Nat.div_eq_of_lt (not_le.mp few)
    have plus : (stop - start) % nw = stop - start := Nat.mod_eq_of_lt (not_le.mp few)
    have cut : (pforActV1 nw start stop).Cut start nw (stop - start) (turn nw) :=
      (cut_of_total positive fits small plus.le
        (by simp only [pforActV1, chunk, plus]; omega)
        (by simp only [pforActV1, chunk, plus]; omega) rfl rfl).1
    exact few (cut.complete ordered served).2.1
  · intro enough
    have chunk : 0 < (stop - start) / nw := Nat.div_pos enough positive
    have part : nw * 1 ≤ nw * ((stop - start) / nw) := Nat.mul_le_mul_left nw chunk
    have total := Nat.div_add_mod (stop - start) nw
    obtain ⟨cut, ends⟩ : (pforActV1 nw start stop).Cut start nw nw (turn nw) ∧
        start + (pforActV1 nw start stop).offset nw = stop :=
      cut_of_total positive fits small (Nat.mod_lt _ positive).le
        (by simp only [pforActV1]; omega) (by simp only [pforActV1]; omega) rfl rfl
    exact Handler.Even.serves ⟨cut, chunk, rfl, positive, ends⟩

/-- The chunks of the second version, whose number is an `int`. -/
theorem pforActV2_cut {start stop grain : Nat} (fits : stop < 2 ^ 64) (ordered : start ≤ stop)
    (int : (stop - start) / grain < 2 ^ 31) :
    (pforActV2 start stop grain).Cut start ((stop - start) / grain) ((stop - start) / grain)
      id where
  fits := by
    have total := Nat.div_add_mod' (stop - start) grain
    simp only [Handler.offset, Chunks.offset, pforActV2]
    omega
  nRes_lt := int.trans (by decide)
  index_zero := rfl
  index_lt _ less := less
  advance_eq k less := if_pos (show k + 1 < 2 ^ 31 by omega)
  more_eq _ _ := rfl

/-- With too many chunks the loop of the second version never ends. -/
theorem pforActV2_waits {start stop grain : Nat} (many : 2 ^ 31 ≤ (stop - start) / grain)
    {state : State} (reaches : (pforActV2 start stop grain).Reaches start state) :
    state.i < 2 ^ 31 ∧ state.delivered = 0 := by
  induction reaches with
  | start begins =>
    obtain rfl := begins
    exact ⟨Nat.two_pow_pos 31, rfl⟩
  | @step state next _ moves ih =>
    obtain ⟨less, waiting⟩ := ih
    obtain ⟨event, acts⟩ := moves
    cases event with
    | send =>
      simp only [Handler.act] at acts
      split at acts
      case isFalse => cases acts
      obtain ⟨i, advances, rfl⟩ := Option.map_eq_some_iff.mp acts
      simp only [pforActV2] at advances
      split at advances
      case isFalse => cases advances
      rename_i int
      cases advances
      exact ⟨int, waiting⟩
    | update =>
      simp only [Handler.act] at acts
      split at acts
      case isFalse => cases acts
      rename_i ready
      have returned := of_decide_eq_false ready.1
      omega
    | begin w | call w | finish w =>
      obtain ⟨crew, -, rfl⟩ := Option.map_eq_some_iff.mp acts
      exact ⟨less, waiting⟩

/-- The second version serves a request when there are chunks, as many of them as the rest at least,
and their number is an `int`. -/
theorem pforActV2_serves_iff {start stop grain : Nat} (fits : stop < 2 ^ 64) (positive : 0 < grain)
    (ordered : start ≤ stop) :
    (pforActV2 start stop grain).Serves start stop ↔ grain ≤ stop - start ∧
      (stop - start) % grain ≤ (stop - start) / grain ∧ (stop - start) / grain < 2 ^ 31 := by
  have total := Nat.div_add_mod' (stop - start) grain
  constructor
  · intro served
    have int : (stop - start) / grain < 2 ^ 31 := by
      by_contra many
      obtain ⟨state, reaches, -, answered⟩ := Handler.Cut.exists_answered served
      have waiting := (pforActV2_waits (not_lt.mp many) reaches).2
      omega
    obtain ⟨some, -, ends⟩ := (pforActV2_cut fits ordered int).complete ordered served
    refine ⟨(Nat.div_pos_iff.mp some).2, ?_, int⟩
    simp only [Handler.offset, Chunks.offset, pforActV2] at ends
    omega
  · rintro ⟨enough, plus, int⟩
    refine Handler.Even.serves ⟨pforActV2_cut fits ordered int, positive, rfl,
      Nat.div_pos enough positive, ?_⟩
    simp only [Handler.offset, Chunks.offset, pforActV2]
    omega

/-- The third version serves a request when there are chunks, as many of them as the rest and the
workers at least. Where the rest is greater, the last chunk ends behind the range. -/
theorem pforActV3_serves_iff {worker start stop grain : Nat} (fits : stop < 2 ^ 64)
    (some : 0 < worker) (small : worker < 2 ^ 64) (positive : 0 < grain) (ordered : start ≤ stop)
    (sums : (stop - start) / grain < (stop - start) % grain → stop + grain < 2 ^ 64) :
    (pforActV3 worker start stop grain).Serves start stop ↔ grain ≤ stop - start ∧
      (stop - start) % grain ≤ (stop - start) / grain ∧ worker ≤ (stop - start) / grain := by
  have total := Nat.div_add_mod' (stop - start) grain
  have most : (stop - start) / grain ≤ stop - start := Nat.div_le_self _ _
  have workers : 0 < max worker ((stop - start) / grain) := lt_max_of_lt_left some
  have replies : max worker ((stop - start) / grain) < 2 ^ 64 := max_lt small (by omega)
  have part : (stop - start) / grain * 1 ≤ (stop - start) / grain * grain :=
    Nat.mul_le_mul_left _ positive
  by_cases plus : (stop - start) % grain ≤ (stop - start) / grain
  · obtain ⟨cut, ends⟩ : (pforActV3 worker start stop grain).Cut start
        (max worker ((stop - start) / grain)) ((stop - start) / grain)
        (turn (max worker ((stop - start) / grain))) ∧
        start + (pforActV3 worker start stop grain).offset ((stop - start) / grain) = stop :=
      cut_of_total workers fits replies plus (by simp only [pforActV3]; omega)
        (by simp only [pforActV3]; omega) rfl rfl
    constructor
    · intro served
      obtain ⟨chunks, less, -⟩ := cut.complete ordered served
      exact ⟨(Nat.div_pos_iff.mp chunks).2, plus, (le_max_left _ _).trans less⟩
    · rintro ⟨enough, -, few⟩
      exact Handler.Even.serves
        ⟨cut, positive, max_eq_right few, Nat.div_pos enough positive, ends⟩
  · refine iff_of_false (fun served => ?_) (fun divides => plus divides.2.1)
    have rest := Nat.mod_lt (stop - start) positive
    have sum := sums (not_le.mp plus)
    have size : ∀ k ≤ (stop - start) / grain + 1,
        (pforActV3 worker start stop grain).offset k = k * grain + k := by
      intro k known
      simp only [Handler.offset, Chunks.offset, pforActV3]
      omega
    have next := size _ le_rfl
    rw [Nat.succ_mul] at next
    -- one more chunk than expected is sent, and it ends behind the range
    have cut : (pforActV3 worker start stop grain).Cut start
        (max worker ((stop - start) / grain)) ((stop - start) / grain + 1)
        (turn (max worker ((stop - start) / grain))) := by
      refine cut_of_turns workers (by omega) replies (by omega) (fun k known => ?_) rfl rfl
      have before : k * grain ≤ (stop - start) / grain * grain :=
        Nat.mul_le_mul_right grain (Nat.le_of_lt_succ known)
      rw [size k known.le]
      omega
    have ends := (cut.complete ordered served).2.2
    omega

/-- The versions that compute the chunks before they send any. -/
inductive Version where
  | v1
  | v2
  | v3

namespace Version

/-- What a version computes for a request. There are `workers` workers when it comes. -/
def pforAct (version : Version) (workers start stop grain : Nat) : Handler :=
  match version with
  | v1 => pforActV1 workers start stop
  | v2 => pforActV2 start stop grain
  | v3 => pforActV3 workers start stop grain

/-- When the chunks of a version make up the range and are as many as the replies that it expects.
The first version needs an index for each worker. The others add one index each to the first
chunks, so the rest of the division must not exceed the number of chunks. The third version expects
a reply from each worker. -/
def Divides (version : Version) (workers start stop grain : Nat) : Prop :=
  match version with
  | v1 => workers ≤ stop - start
  | v2 => grain ≤ stop - start ∧ (stop - start) % grain ≤ (stop - start) / grain ∧
      (stop - start) / grain < 2 ^ 31
  | v3 => grain ≤ stop - start ∧ (stop - start) % grain ≤ (stop - start) / grain ∧
      workers ≤ (stop - start) / grain

/-- A version serves the requests whose ranges it divides, in whatever order the workers go on, and
no others where the number of workers, and for the third version the sum of the end of the range
and the grain, are of type `size_t`. -/
theorem pforAct_serves (version : Version) {workers start stop grain : Nat}
    (fits : stop < 2 ^ 64) (positive : 0 < workers) (some : 0 < grain) :
    (version.Divides workers start stop grain →
      (version.pforAct workers start stop grain).Serves start stop) ∧
    (start ≤ stop → workers < 2 ^ 64 → (version = v3 → stop + grain < 2 ^ 64) →
      (version.pforAct workers start stop grain).Serves start stop →
      version.Divides workers start stop grain) := by
  constructor
  · intro divides
    cases version with
    | v1 =>
      have enough : workers ≤ stop - start := divides
      exact (pforActV1_serves_iff fits positive (by omega) (by omega)).mpr enough
    | v2 =>
      have enough := divides.1
      exact (pforActV2_serves_iff fits some (by omega)).mpr divides
    | v3 =>
      obtain ⟨enough, plus, few⟩ := divides
      have most : (stop - start) / grain ≤ stop - start := Nat.div_le_self _ _
      exact (pforActV3_serves_iff fits positive (by omega) some (by omega)
        fun less => absurd plus (not_le.mpr less)).mpr ⟨enough, plus, few⟩
  · intro ordered small sums served
    cases version with
    | v1 => exact (pforActV1_serves_iff fits positive small ordered).mp served
    | v2 => exact (pforActV2_serves_iff fits some ordered).mp served
    | v3 =>
      exact (pforActV3_serves_iff fits positive small some ordered fun _ => sums rfl).mp served

/-- Ten indices for four workers, and ten indices in chunks of four, which the third version with
two workers divides. It does not serve a request for one index in chunks of one, since it expects a
reply from each of two workers. -/
theorem pforAct_serves_sample :
    (v1.pforAct 4 0 10 1).Serves 0 10 ∧ (v2.pforAct 1 0 10 4).Serves 0 10 ∧
      (v3.pforAct 2 0 10 4).Serves 0 10 ∧ ¬(v3.pforAct 2 0 1 1).Serves 0 1 := by
  refine ⟨(pforAct_serves v1 (by decide) (by decide) (by decide)).1 (by unfold Divides; decide),
    (pforAct_serves v2 (by decide) (by decide) (by decide)).1 (by unfold Divides; decide),
    (pforAct_serves v3 (by decide) (by decide) (by decide)).1 (by unfold Divides; decide),
    fun served => ?_⟩
  have divides := (pforAct_serves v3 (by decide) (by decide) (by decide)).2 (by decide) (by decide)
    (fun _ => by decide) served
  exact absurd divides.2.2 (by decide)

/-- A request for an empty range is never answered. -/
theorem pforAct_hangs :
    ¬∀ (version : Version) (workers start stop grain : Nat), start ≤ stop → stop < 2 ^ 64 →
      0 < workers → 0 < grain → (version.pforAct workers start stop grain).Serves start stop := by
  intro serves
  have served := serves v1 1 0 0 1 le_rfl (by decide) one_pos one_pos
  have answered := served.answered ((v1.pforAct 1 0 0 1).initial 0) (.start rfl) ?_
  · cases answered
  rintro next ⟨event, acts⟩
  cases event <;> cases acts

end Version

end P3arsec.Raytrace.ParallelFor
