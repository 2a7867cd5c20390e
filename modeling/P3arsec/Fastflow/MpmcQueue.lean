import P3arsec.Fastflow.SwsrBuffer

/-!
# The bounded queue of many producers and many consumers

`MPMC_Ptr_Queue` gives every `push` and every `pop` a ticket by a compare-and-swap on `pwrite` or
`pread`. A cell serves the tickets that are equal modulo the number of cells, and its sequence
number tells whose turn it is: that of a ticket whose entry is not stored, the next one while the
entry is there, and that of the next turn when it is taken. Any number of parties run through the
calls here, one access a step; the weak compare-and-swap may fail at any time. The counters do not
wrap.
-/

namespace P3arsec.Fastflow

open P3arsec.Lib
open P3arsec.Lib.Concurrent

variable {α π : Type}

/-- `isPowerOf2`, which takes an `unsigned`. -/
def isPowerOf2 (x : Nat) : Bool :=
  let x := x % 2 ^ 32
  x != 0 && x &&& (x - 1) == 0

/-- The loop of `nextPowerOf2`: `p` doubles until it reaches `x`. -/
def nextPowerOf2 (x : Nat) : Nat → Nat → Nat
  | 0, p => p
  | fuel + 1, p => if x > p then nextPowerOf2 x fuel (2 * p) else p

/-- The fields of `MPMC_Ptr_Queue`: the two counters, the mask and the cells with their sequence
numbers. -/
structure MpmcQueue (α : Type) where
  pwrite : Nat
  pread : Nat
  mask : Nat
  seq : Nat → Nat
  data : Nat → Option α

namespace MpmcQueue

/-- `init`. -/
def init (size : Nat) : MpmcQueue α :=
  let size := if size < 2 then 2 else size
  let size := if isPowerOf2 size then size else nextPowerOf2 size size 1
  { pwrite := 0, pread := 0, mask := size - 1, seq := fun i => i, data := fun _ => none }

end MpmcQueue

/-- Where a party is in its call. -/
inductive Worker (α : Type) where
  | idle
  /-- `push` is about to load `pwrite`. -/
  | pushing (data : α)
  /-- `push` is about to load the sequence number of its cell. -/
  | pushLoaded (data : α) (pw : Nat)
  /-- `push` is about to swap `pwrite`. -/
  | pushSwap (data : α) (pw : Nat)
  /-- `push` is about to store the data. -/
  | writing (data : α) (pw : Nat)
  /-- `push` is about to store the sequence number. -/
  | publishing (pw : Nat)
  /-- `pop` is about to load `pread`. -/
  | popping
  /-- `pop` is about to load the sequence number of its cell. -/
  | popLoaded (pr : Nat)
  /-- `pop` is about to swap `pread`. -/
  | popSwap (pr : Nat)
  /-- `pop` is about to read the data. -/
  | reading (pr : Nat)
  /-- `pop` is about to store the sequence number. -/
  | freeing (pr : Nat) (data : Option α)
  /-- The call is about to return. -/
  | returning (answer : Answer α)

namespace MpmcQueue

/-- What a party does next. `succeeds` says whether a compare-and-swap that finds the value it
expects stores the new one. -/
def act (q : MpmcQueue α) (succeeds : Bool) : Worker α → Option (Worker α × MpmcQueue α)
  | .idle => none
  | .pushing data => some (.pushLoaded data q.pwrite, q)
  | .pushLoaded data pw =>
    let seq := q.seq (pw &&& q.mask)
    some (if pw = seq then .pushSwap data pw
      else if pw > seq then .returning (.pushed false) else .pushing data, q)
  | .pushSwap data pw =>
    if q.pwrite = pw ∧ succeeds then some (.writing data pw, { q with pwrite := pw + 1 })
    else some (.pushing data, q)
  | .writing data pw =>
    some (.publishing pw, { q with data := Function.update q.data (pw &&& q.mask) (some data) })
  -- `seq` is what the loop has loaded, and equal to the ticket
  | .publishing pw =>
    some (.returning (.pushed true),
      { q with seq := Function.update q.seq (pw &&& q.mask) (pw + 1) })
  | .popping => some (.popLoaded q.pread, q)
  | .popLoaded pr =>
    let diff : Int := q.seq (pr &&& q.mask) - (pr + 1)
    some (if diff = 0 then .popSwap pr
      else if diff < 0 then .returning .nothing else .popping, q)
  | .popSwap pr =>
    if q.pread = pr ∧ succeeds then some (.reading pr, { q with pread := pr + 1 })
    else some (.popping, q)
  | .reading pr => some (.freeing pr (q.data (pr &&& q.mask)), q)
  | .freeing pr data =>
    some (.returning (.popped data),
      { q with seq := Function.update q.seq (pr &&& q.mask) (pr + q.mask + 1) })
  | .returning _ => none

end MpmcQueue

/-- A queue with its parties. -/
structure Workers (π α : Type) where
  queue : MpmcQueue α
  worker : π → Worker α

variable [DecidableEq π]

/-- A step of one of the parties. -/
inductive Workers.Step :
    Workers π α → Option (Event π (Operation α) (Answer α)) → Workers π α → Prop where
  | push {q : MpmcQueue α} {worker : π → Worker α} {p : π} (data : α) (waits : worker p = .idle) :
      Workers.Step ⟨q, worker⟩ (some (.call p (.push data)))
        ⟨q, Function.update worker p (.pushing data)⟩
  | pop {q : MpmcQueue α} {worker : π → Worker α} {p : π} (waits : worker p = .idle) :
      Workers.Step ⟨q, worker⟩ (some (.call p .pop)) ⟨q, Function.update worker p .popping⟩
  | act {q q' : MpmcQueue α} {worker : π → Worker α} {p : π} {next : Worker α} {succeeds : Bool}
      (moves : q.act succeeds (worker p) = some (next, q')) :
      Workers.Step ⟨q, worker⟩ none ⟨q', Function.update worker p next⟩
  | answer {q : MpmcQueue α} {worker : π → Worker α} {p : π} {answer : Answer α}
      (waits : worker p = .returning answer) :
      Workers.Step ⟨q, worker⟩ (some (.answer p answer)) ⟨q, Function.update worker p .idle⟩

/-- A queue of at most `size` entries whose calls may also fail. -/
inductive MayFail (size : Nat) : List α → Operation α → Answer α → List α → Prop where
  | pushed {queue : List α} {data : α} (room : queue.length < size) :
      MayFail size queue (.push data) (.pushed true) (queue ++ [data])
  | refused {queue : List α} {data : α} : MayFail size queue (.push data) (.pushed false) queue
  | popped {data : α} {queue : List α} :
      MayFail size (data :: queue) .pop (.popped (some data)) queue
  | failed {queue : List α} : MayFail size queue .pop .nothing queue

/-! ## The tickets -/

/-- A party has the ticket of a `push` that is not complete. -/
def Worker.pushes : Worker α → Nat → Prop
  | .writing _ pw, t | .publishing pw, t => pw = t
  | _, _ => False

/-- A party has the ticket of a `pop` that is not complete. -/
def Worker.pops : Worker α → Nat → Prop
  | .reading pr, t | .freeing pr _, t => pr = t
  | _, _ => False

/-- What a party knows. `log` lists the entries by their tickets. -/
def Worker.Knows (q : MpmcQueue α) (log : List α) : Worker α → Prop
  | .pushLoaded _ pw => pw ≤ q.pwrite
  | .pushSwap _ pw => pw ≤ q.pwrite ∧ (pw = q.pwrite → q.seq (pw % (q.mask + 1)) = pw)
  | .writing data pw => log[pw]? = some data
  | .publishing pw => q.data (pw % (q.mask + 1)) = log[pw]?
  | .popLoaded pr => pr ≤ q.pread
  | .popSwap pr => pr ≤ q.pread ∧ (pr = q.pread → q.seq (pr % (q.mask + 1)) = pr + 1)
  | .reading pr => q.data (pr % (q.mask + 1)) = log[pr]?
  | .freeing pr data => data = log[pr]?
  | _ => True

/-- How tickets, counters and sequence numbers belong together. -/
structure Ticketed (q : MpmcQueue α) (worker : π → Worker α) (log : List α) : Prop where
  /-- The cells are at least two. -/
  two_le : 2 ≤ q.mask + 1
  /-- A mask takes the remainder. -/
  mask_eq : ∀ t, t &&& q.mask = t % (q.mask + 1)
  /-- Every ticket that is given out has an entry. -/
  length_eq : log.length = q.pwrite
  /-- No more tickets are taken than given out, and no more given out than there are cells. -/
  pread_le : q.pread ≤ q.pwrite
  room : q.pwrite ≤ q.pread + (q.mask + 1)
  /-- What the parties know. -/
  knows : ∀ p, (worker p).Knows q log
  /-- The turn of a `push` that is not complete. -/
  pushes : ∀ p t, (worker p).pushes t → t < q.pwrite ∧ q.seq (t % (q.mask + 1)) = t
  /-- The turn of a `pop` that is not complete. -/
  pops : ∀ p t, (worker p).pops t → t < q.pread ∧ q.seq (t % (q.mask + 1)) = t + 1
  /-- A ticket has one owner. -/
  push_unique : ∀ p p' t, (worker p).pushes t → (worker p').pushes t → p = p'
  pop_unique : ∀ p p' t, (worker p).pops t → (worker p').pops t → p = p'
  /-- An entry that is not taken is there, or its `push` is not complete. -/
  waiting : ∀ t, q.pread ≤ t → t < q.pwrite →
    (∃ p, (worker p).pushes t) ∨
      q.seq (t % (q.mask + 1)) = t + 1 ∧ q.data (t % (q.mask + 1)) = log[t]?
  /-- The cell of an entry that is taken is free for the next turn, or its `pop` is not complete. -/
  taken : ∀ t, t < q.pread →
    (∃ p, (worker p).pops t) ∨ t + (q.mask + 1) ≤ q.seq (t % (q.mask + 1))
  /-- A sequence number behind a turn tells of an entry. -/
  stored : ∀ t, q.seq (t % (q.mask + 1)) = t + 1 → t < q.pwrite
  /-- The first turn of a cell. -/
  first : ∀ t, t < q.mask + 1 → t ≤ q.seq t

section Steps

variable {q : MpmcQueue α} {worker : π → Worker α} {log : List α} {p : π} {next : Worker α}

/-- Tickets that follow one another have different cells. -/
theorem succ_mod_ne {n t : Nat} (two_le : 2 ≤ n) : (t + 1) % n ≠ t % n := by
  intro same
  have known := (Nat.modEq_iff_dvd' (Nat.le_succ t)).mp same.symm
  rw [Nat.succ_sub (le_refl t), Nat.sub_self] at known
  have := Nat.le_of_dvd Nat.one_pos known
  omega

section Owners

variable {owns : Worker α → Nat → Prop} {t : Nat} {p' : π}

/-- A party that keeps its tickets leaves all owners. -/
theorem owns_update (same : ∀ t, owns next t ↔ owns (worker p) t) :
    owns (Function.update worker p next p') t ↔ owns (worker p') t := by
  by_cases itself : p' = p
  · rw [itself, Function.update_self, same]
  · rw [Function.update_of_ne itself]

/-- A party that has no ticket behind a step is not an owner. -/
theorem owner_of_update (none : ∀ t, ¬owns next t)
    (owned : owns (Function.update worker p next p') t) : p' ≠ p ∧ owns (worker p') t := by
  by_cases itself : p' = p
  · rw [itself, Function.update_self] at owned
    exact absurd owned (none t)
  · rw [Function.update_of_ne itself] at owned
    exact ⟨itself, owned⟩

/-- Who has a ticket behind a step in which a party gets one. -/
theorem owner_of_take {ticket : Nat} (takes : ∀ t, owns next t → ticket = t)
    (owned : owns (Function.update worker p next p') t) :
    p' = p ∧ ticket = t ∨ p' ≠ p ∧ owns (worker p') t := by
  by_cases itself : p' = p
  · rw [itself, Function.update_self] at owned
    exact .inl ⟨itself, takes t owned⟩
  · rw [Function.update_of_ne itself] at owned
    exact .inr ⟨itself, owned⟩

/-- A ticket that is new has one owner. -/
theorem unique_of_take (ticket : Nat) (takes : ∀ t, owns next t → ticket = t)
    (fresh : ∀ p', ¬owns (worker p') ticket)
    (unique : ∀ p' p'' t, owns (worker p') t → owns (worker p'') t → p' = p'') :
    ∀ p' p'' t, owns (Function.update worker p next p') t →
      owns (Function.update worker p next p'') t → p' = p'' := by
  intro p' p'' t owned owned'
  rcases owner_of_take takes owned with ⟨rfl, rfl⟩ | ⟨apart, before⟩ <;>
    rcases owner_of_take takes owned' with ⟨rfl, same⟩ | ⟨apart', before'⟩
  · rfl
  · exact absurd before' (fresh p'')
  · exact absurd (same ▸ before) (fresh p')
  · exact unique p' p'' t before before'

/-- What the other parties have is left alone. -/
theorem exists_update (none : ¬owns (worker p) t) :
    (∃ p', owns (worker p') t) → ∃ p', owns (Function.update worker p next p') t := by
  rintro ⟨p', owned⟩
  have apart : p' ≠ p := by
    rintro rfl
    exact none owned
  exact ⟨p', by rwa [Function.update_of_ne apart]⟩

end Owners

/-- What holds of the party and of the others holds of all. -/
theorem forall_update {holds : Worker α → Prop} (itself : holds next)
    (others : ∀ p', p' ≠ p → holds (worker p')) (p' : π) :
    holds (Function.update worker p next p') := by
  by_cases same : p' = p
  · rwa [same, Function.update_self]
  · rw [Function.update_of_ne same]
    exact others p' same

namespace Ticketed

/-- A party that loads keeps its tickets. -/
theorem turn (known : Ticketed q worker log) (pushes : ∀ t, next.pushes t ↔ (worker p).pushes t)
    (pops : ∀ t, next.pops t ↔ (worker p).pops t) (knows : next.Knows q log) :
    Ticketed q (Function.update worker p next) log :=
  { known with
    knows := forall_update knows fun p' _ => known.knows p'
    pushes := fun p' t owned => known.pushes p' t ((owns_update pushes).mp owned)
    pops := fun p' t owned => known.pops p' t ((owns_update pops).mp owned)
    push_unique := fun p' p'' t owned owned' => known.push_unique p' p'' t
      ((owns_update pushes).mp owned) ((owns_update pushes).mp owned')
    pop_unique := fun p' p'' t owned owned' => known.pop_unique p' p'' t
      ((owns_update pops).mp owned) ((owns_update pops).mp owned')
    waiting := fun t above below => (known.waiting t above below).imp_left
      fun ⟨p', owned⟩ => ⟨p', (owns_update pushes).mpr owned⟩
    taken := fun t below => (known.taken t below).imp_left
      fun ⟨p', owned⟩ => ⟨p', (owns_update pops).mpr owned⟩ }

/-- The ticket of a `push` is given out while its cell is free. -/
theorem takePush (known : Ticketed q worker log) {data : α}
    (at_swap : worker p = .pushSwap data q.pwrite) :
    log.length < q.pread + (q.mask + 1) ∧
    Ticketed { q with pwrite := q.pwrite + 1 } (Function.update worker p (.writing data q.pwrite))
      (log ++ [data]) := by
  have turn : q.seq (q.pwrite % (q.mask + 1)) = q.pwrite := by
    have said := known.knows p
    rw [at_swap] at said
    exact said.2 rfl
  have none_pushes : ∀ t, ¬(worker p).pushes t := fun t => by rw [at_swap]; exact id
  have none_pops : ∀ t, ¬(worker p).pops t := fun t => by rw [at_swap]; exact id
  have two_le := known.two_le
  have length_eq := known.length_eq
  have pread_le := known.pread_le
  have same_log : ∀ t, t < q.pwrite → (log ++ [data])[t]? = log[t]? := fun t below =>
    List.getElem?_append_left (by omega)
  have free : q.pwrite < q.pread + (q.mask + 1) := by
    by_contra full
    have room := known.room
    have cell : q.pwrite % (q.mask + 1) = q.pread % (q.mask + 1) := by
      rw [show q.pwrite = q.pread + (q.mask + 1) by omega, Nat.add_mod_right]
    rw [cell] at turn
    rcases known.waiting q.pread le_rfl (by omega) with ⟨p', owned⟩ | ⟨stored, -⟩
    · have := (known.pushes p' _ owned).2
      omega
    · omega
  refine ⟨by omega, {
    two_le := two_le
    mask_eq := known.mask_eq
    length_eq := by rw [List.length_append, length_eq]; rfl
    pread_le := Nat.le_succ_of_le pread_le
    room := free
    knows := forall_update ?_ fun p' _ => ?_
    pushes := fun p' t owned => ?_
    pops := fun p' t owned => known.pops p' t (owner_of_update (fun _ => id) owned).2
    push_unique := unique_of_take q.pwrite (fun _ => id)
      (fun p' owned => lt_irrefl _ (known.pushes p' _ owned).1) known.push_unique
    pop_unique := fun p' p'' t owned owned' => known.pop_unique p' p'' t
      (owner_of_update (fun _ => id) owned).2 (owner_of_update (fun _ => id) owned').2
    waiting := fun t above below => ?_
    taken := fun t below => (known.taken t below).imp_left (exists_update (none_pops t))
    stored := fun t said => Nat.lt_succ_of_lt (known.stored t said)
    first := known.first }⟩
  · show (log ++ [data])[q.pwrite]? = some data
    rw [← length_eq, List.getElem?_concat_length]
  · have said := known.knows p'
    have below := known.pushes p'
    have below' := known.pops p'
    cases at_ : worker p' <;> rw [at_] at said below below' <;>
      simp only [Worker.Knows, Worker.pushes, Worker.pops] at said below below' ⊢
    case pushLoaded => exact Nat.le_succ_of_le said
    case pushSwap => exact ⟨Nat.le_succ_of_le said.1, fun eq => by omega⟩
    case writing => rw [same_log _ (below _ rfl).1, said]
    case publishing => rw [same_log _ (below _ rfl).1, said]
    case popLoaded => exact said
    case popSwap => exact said
    case reading => rw [same_log _ (lt_of_lt_of_le (below' _ rfl).1 pread_le), said]
    case freeing => rw [same_log _ (lt_of_lt_of_le (below' _ rfl).1 pread_le), said]
  · rcases owner_of_take (fun _ => id) owned with ⟨-, rfl⟩ | ⟨-, before⟩
    · exact ⟨Nat.lt_succ_self _, turn⟩
    · exact ⟨Nat.lt_succ_of_lt (known.pushes p' t before).1, (known.pushes p' t before).2⟩
  · by_cases last : t = q.pwrite
    · subst last
      exact .inl ⟨p, by rw [Function.update_self]; rfl⟩
    · have inside : t < q.pwrite := by
        have : t < q.pwrite + 1 := below
        omega
      rcases known.waiting t above inside with owned | ⟨stored, entry⟩
      · exact .inl (exists_update (none_pushes t) owned)
      · exact .inr ⟨stored, by rw [same_log t inside]; exact entry⟩

/-- The entry of a ticket is written. -/
theorem write (known : Ticketed q worker log) {data : α} {pw : Nat}
    (at_write : worker p = .writing data pw) :
    Ticketed { q with data := Function.update q.data (pw % (q.mask + 1)) (some data) }
      (Function.update worker p (.publishing pw)) log := by
  have owner : (worker p).pushes pw := by rw [at_write]; rfl
  have turn := (known.pushes p pw owner).2
  have entry : log[pw]? = some data := by
    have said := known.knows p
    rwa [at_write] at said
  have pushes : ∀ t, (Worker.publishing pw : Worker α).pushes t ↔ (worker p).pushes t := fun t => by
    rw [at_write]
    rfl
  have pops : ∀ t, (Worker.publishing pw : Worker α).pops t ↔ (worker p).pops t := fun t => by
    rw [at_write]
    rfl
  -- the cell of an entry that is stored is another one
  have apart : ∀ t, q.seq (t % (q.mask + 1)) = t + 1 → t % (q.mask + 1) ≠ pw % (q.mask + 1) :=
    fun t stored same => by
      rw [same, turn] at stored
      exact succ_mod_ne known.two_le (stored ▸ same.symm)
  refine {
    two_le := known.two_le
    mask_eq := known.mask_eq
    length_eq := known.length_eq
    pread_le := known.pread_le
    room := known.room
    knows := forall_update ?_ fun p' other => ?_
    pushes := fun p' t owned => known.pushes p' t ((owns_update pushes).mp owned)
    pops := fun p' t owned => known.pops p' t ((owns_update pops).mp owned)
    push_unique := fun p' p'' t owned owned' => known.push_unique p' p'' t
      ((owns_update pushes).mp owned) ((owns_update pushes).mp owned')
    pop_unique := fun p' p'' t owned owned' => known.pop_unique p' p'' t
      ((owns_update pops).mp owned) ((owns_update pops).mp owned')
    waiting := fun t above below => ?_
    taken := fun t below => (known.taken t below).imp_left
      fun ⟨p', owned⟩ => ⟨p', (owns_update pops).mpr owned⟩
    stored := known.stored
    first := known.first }
  · show Function.update q.data _ _ _ = _
    rw [Function.update_self, entry]
  · have said := known.knows p'
    have owned := known.pushes p'
    have owned' := known.pops p'
    have alone := known.push_unique p' p
    cases at_ : worker p' <;> rw [at_] at said owned owned' alone <;>
      simp only [Worker.Knows, Worker.pushes, Worker.pops] at said owned owned' alone ⊢
    case pushLoaded => exact said
    case pushSwap => exact said
    case writing => exact said
    case publishing pw' =>
      have cell : pw' % (q.mask + 1) ≠ pw % (q.mask + 1) := fun same => by
        have mine := (owned pw' rfl).2
        rw [same, turn] at mine
        exact other (alone pw mine.symm owner)
      rw [Function.update_of_ne cell]
      exact said
    case popLoaded => exact said
    case popSwap => exact said
    case reading pr =>
      rw [Function.update_of_ne (apart pr (owned' pr rfl).2)]
      exact said
    case freeing => exact said
  · rcases known.waiting t above below with ⟨p', owned⟩ | ⟨stored, there⟩
    · exact .inl ⟨p', (owns_update pushes).mpr owned⟩
    · refine .inr ⟨stored, ?_⟩
      show Function.update q.data _ _ _ = _
      rw [Function.update_of_ne (apart t stored)]
      exact there

/-- The entry of a ticket is there for its `pop`. -/
theorem publish (known : Ticketed q worker log) {pw : Nat}
    (at_store : worker p = .publishing pw) :
    Ticketed { q with seq := Function.update q.seq (pw % (q.mask + 1)) (pw + 1) }
      (Function.update worker p (.returning (.pushed true))) log := by
  have owner : (worker p).pushes pw := by rw [at_store]; rfl
  obtain ⟨below_pw, turn⟩ := known.pushes p pw owner
  have entry : q.data (pw % (q.mask + 1)) = log[pw]? := by
    have said := known.knows p
    rwa [at_store] at said
  have none_pops : ∀ t, ¬(worker p).pops t := fun t => by rw [at_store]; exact id
  have only : ∀ t, (worker p).pushes t → pw = t := fun t owned => by
    rwa [at_store] at owned
  -- the cell of an entry that is stored is another one
  have apart : ∀ t, q.seq (t % (q.mask + 1)) = t + 1 → t % (q.mask + 1) ≠ pw % (q.mask + 1) :=
    fun t stored same => by
      rw [same, turn] at stored
      exact succ_mod_ne known.two_le (stored ▸ same.symm)
  -- and so is the cell of another `push`
  have apart' : ∀ p' t, p' ≠ p → (worker p').pushes t →
      t % (q.mask + 1) ≠ pw % (q.mask + 1) := fun p' t other owned same => by
    have mine := (known.pushes p' t owned).2
    rw [same, turn] at mine
    exact other (known.push_unique p' p pw (mine ▸ owned) owner)
  refine {
    two_le := known.two_le
    mask_eq := known.mask_eq
    length_eq := known.length_eq
    pread_le := known.pread_le
    room := known.room
    knows := forall_update trivial fun p' other => ?_
    pushes := fun p' t owned => ?_
    pops := fun p' t owned => ?_
    push_unique := fun p' p'' t owned owned' => known.push_unique p' p'' t
      (owner_of_update (fun _ => id) owned).2 (owner_of_update (fun _ => id) owned').2
    pop_unique := fun p' p'' t owned owned' => known.pop_unique p' p'' t
      (owner_of_update (fun _ => id) owned).2 (owner_of_update (fun _ => id) owned').2
    waiting := fun t above below => ?_
    taken := fun t below => ?_
    stored := fun t said => ?_
    first := fun t below => ?_ }
  · have said := known.knows p'
    cases at_ : worker p' <;> rw [at_] at said <;> simp only [Worker.Knows] at said ⊢
    case pushLoaded => exact said
    case pushSwap pw' =>
      refine ⟨said.1, fun eq => ?_⟩
      have cell : pw' % (q.mask + 1) ≠ pw % (q.mask + 1) := fun same => by
        have mine := said.2 eq
        rw [same, turn] at mine
        omega
      rw [Function.update_of_ne cell]
      exact said.2 eq
    case writing => exact said
    case publishing => exact said
    case popLoaded => exact said
    case popSwap pr =>
      refine ⟨said.1, fun eq => ?_⟩
      rw [Function.update_of_ne (apart pr (said.2 eq))]
      exact said.2 eq
    case reading => exact said
    case freeing => exact said
  · obtain ⟨other, before⟩ := owner_of_update (fun _ => id) owned
    have kept := known.pushes p' t before
    exact ⟨kept.1, by
      show Function.update q.seq _ _ _ = _
      rw [Function.update_of_ne (apart' p' t other before)]
      exact kept.2⟩
  · obtain ⟨other, before⟩ := owner_of_update (fun _ => id) owned
    have kept := known.pops p' t before
    exact ⟨kept.1, by
      show Function.update q.seq _ _ _ = _
      rw [Function.update_of_ne (apart t kept.2)]
      exact kept.2⟩
  · show (∃ p', _) ∨ Function.update q.seq _ _ _ = _ ∧ _
    by_cases mine : pw = t
    · subst mine
      exact .inr ⟨Function.update_self .., entry⟩
    · rcases known.waiting t above below with owned | ⟨stored, there⟩
      · exact .inl (exists_update (fun owned => mine (only t owned)) owned)
      · exact .inr ⟨by rw [Function.update_of_ne (apart t stored), stored], there⟩
  · show (∃ p', _) ∨ t + (q.mask + 1) ≤ Function.update q.seq _ _ _
    refine (known.taken t below).imp (exists_update (none_pops t)) fun free => ?_
    by_cases same : t % (q.mask + 1) = pw % (q.mask + 1)
    · rw [same, turn] at free
      rw [same, Function.update_self]
      exact Nat.le_succ_of_le free
    · rwa [Function.update_of_ne same]
  · have said : Function.update q.seq (pw % (q.mask + 1)) (pw + 1) (t % (q.mask + 1)) = t + 1 :=
      said
    by_cases same : t % (q.mask + 1) = pw % (q.mask + 1)
    · rw [same, Function.update_self] at said
      show t < q.pwrite
      omega
    · rw [Function.update_of_ne same] at said
      exact known.stored t said
  · show t ≤ Function.update q.seq _ _ _
    have before := known.first t below
    by_cases same : t = pw % (q.mask + 1)
    · rw [same, turn] at before
      rw [same, Function.update_self]
      exact Nat.le_succ_of_le before
    · rwa [Function.update_of_ne same]

/-- The ticket of a `pop` is given out while its entry is there. -/
theorem takePop (known : Ticketed q worker log) (at_swap : worker p = .popSwap q.pread) :
    q.pread < q.pwrite ∧
    Ticketed { q with pread := q.pread + 1 } (Function.update worker p (.reading q.pread)) log := by
  have turn : q.seq (q.pread % (q.mask + 1)) = q.pread + 1 := by
    have said := known.knows p
    rw [at_swap] at said
    exact said.2 rfl
  have below := known.stored _ turn
  have none_pushes : ∀ t, ¬(worker p).pushes t := fun t => by rw [at_swap]; exact id
  have none_pops : ∀ t, ¬(worker p).pops t := fun t => by rw [at_swap]; exact id
  have room := known.room
  refine ⟨below, {
    two_le := known.two_le
    mask_eq := known.mask_eq
    length_eq := known.length_eq
    pread_le := below
    room := by show q.pwrite ≤ q.pread + 1 + (q.mask + 1); omega
    knows := forall_update ?_ fun p' _ => ?_
    pushes := fun p' t owned => known.pushes p' t (owner_of_update (fun _ => id) owned).2
    pops := fun p' t owned => ?_
    push_unique := fun p' p'' t owned owned' => known.push_unique p' p'' t
      (owner_of_update (fun _ => id) owned).2 (owner_of_update (fun _ => id) owned').2
    pop_unique := unique_of_take q.pread (fun _ => id)
      (fun p' owned => lt_irrefl _ (known.pops p' _ owned).1) known.pop_unique
    waiting := fun t above below => (known.waiting t (Nat.le_of_succ_le above) below).imp_left
      (exists_update (none_pushes t))
    taken := fun t below => ?_
    stored := known.stored
    first := known.first }⟩
  · rcases known.waiting q.pread le_rfl below with ⟨p', owned⟩ | ⟨-, there⟩
    · have := (known.pushes p' _ owned).2
      omega
    · exact there
  · have said := known.knows p'
    cases at_ : worker p' <;> rw [at_] at said <;> simp only [Worker.Knows] at said ⊢
    case pushLoaded => exact said
    case pushSwap => exact said
    case writing => exact said
    case publishing => exact said
    case popLoaded => exact Nat.le_succ_of_le said
    case popSwap => exact ⟨Nat.le_succ_of_le said.1, fun eq => by omega⟩
    case reading => exact said
    case freeing => exact said
  · rcases owner_of_take (fun _ => id) owned with ⟨-, rfl⟩ | ⟨-, before⟩
    · exact ⟨Nat.lt_succ_self _, turn⟩
    · exact ⟨Nat.lt_succ_of_lt (known.pops p' t before).1, (known.pops p' t before).2⟩
  · by_cases last : t = q.pread
    · subst last
      exact .inl ⟨p, by rw [Function.update_self]; rfl⟩
    · have inside : t < q.pread := by
        have : t < q.pread + 1 := below
        omega
      exact (known.taken t inside).imp_left (exists_update (none_pops t))

/-- The cell of a ticket is free for its next turn. -/
theorem free (known : Ticketed q worker log) {pr : Nat} {data : Option α}
    (at_store : worker p = .freeing pr data) :
    Ticketed { q with seq := Function.update q.seq (pr % (q.mask + 1)) (pr + q.mask + 1) }
      (Function.update worker p (.returning (.popped data))) log := by
  have owner : (worker p).pops pr := by rw [at_store]; rfl
  obtain ⟨below_pr, turn⟩ := known.pops p pr owner
  have none_pushes : ∀ t, ¬(worker p).pushes t := fun t => by rw [at_store]; exact id
  have only : ∀ t, (worker p).pops t → pr = t := fun t owned => by
    rwa [at_store] at owned
  -- the cell of an entry that is not stored is another one
  have apart : ∀ t, q.seq (t % (q.mask + 1)) = t → t % (q.mask + 1) ≠ pr % (q.mask + 1) :=
    fun t empty same => by
      rw [same, turn] at empty
      exact succ_mod_ne known.two_le (empty ▸ same)
  -- and so is the cell of another entry that is stored
  have apart' : ∀ t, pr ≠ t → q.seq (t % (q.mask + 1)) = t + 1 →
      t % (q.mask + 1) ≠ pr % (q.mask + 1) := fun t other stored same => by
    rw [same, turn] at stored
    omega
  refine {
    two_le := known.two_le
    mask_eq := known.mask_eq
    length_eq := known.length_eq
    pread_le := known.pread_le
    room := known.room
    knows := forall_update trivial fun p' _ => ?_
    pushes := fun p' t owned => ?_
    pops := fun p' t owned => ?_
    push_unique := fun p' p'' t owned owned' => known.push_unique p' p'' t
      (owner_of_update (fun _ => id) owned).2 (owner_of_update (fun _ => id) owned').2
    pop_unique := fun p' p'' t owned owned' => known.pop_unique p' p'' t
      (owner_of_update (fun _ => id) owned).2 (owner_of_update (fun _ => id) owned').2
    waiting := fun t above below => ?_
    taken := fun t below => ?_
    stored := fun t said => ?_
    first := fun t below => ?_ }
  · have said := known.knows p'
    cases at_ : worker p' <;> rw [at_] at said <;> simp only [Worker.Knows] at said ⊢
    case pushLoaded => exact said
    case pushSwap pw =>
      refine ⟨said.1, fun eq => ?_⟩
      rw [Function.update_of_ne (apart pw (said.2 eq))]
      exact said.2 eq
    case writing => exact said
    case publishing => exact said
    case popLoaded => exact said
    case popSwap pr' =>
      refine ⟨said.1, fun eq => ?_⟩
      rw [Function.update_of_ne (apart' pr' (by omega) (said.2 eq))]
      exact said.2 eq
    case reading => exact said
    case freeing => exact said
  · have before := (owner_of_update (fun _ => id) owned).2
    have kept := known.pushes p' t before
    exact ⟨kept.1, by
      show Function.update q.seq _ _ _ = _
      rw [Function.update_of_ne (apart t kept.2)]
      exact kept.2⟩
  · obtain ⟨other, before⟩ := owner_of_update (fun _ => id) owned
    have kept := known.pops p' t before
    have differ : pr ≠ t := fun same =>
      other (known.pop_unique p' p pr (same ▸ before) owner)
    exact ⟨kept.1, by
      show Function.update q.seq _ _ _ = _
      rw [Function.update_of_ne (apart' t differ kept.2)]
      exact kept.2⟩
  · show (∃ p', _) ∨ Function.update q.seq _ _ _ = _ ∧ _
    rcases known.waiting t above below with owned | ⟨stored, there⟩
    · exact .inl (exists_update (none_pushes t) owned)
    · have above : q.pread ≤ t := above
      exact .inr ⟨by rw [Function.update_of_ne (apart' t (by omega) stored), stored], there⟩
  · show (∃ p', _) ∨ t + (q.mask + 1) ≤ Function.update q.seq _ _ _
    by_cases mine : pr = t
    · subst mine
      rw [Function.update_self]
      exact .inr (by omega)
    · refine (known.taken t below).imp (exists_update fun owned => mine (only t owned))
        fun free => ?_
      by_cases same : t % (q.mask + 1) = pr % (q.mask + 1)
      · rw [same, turn] at free
        rw [same, Function.update_self]
        omega
      · rwa [Function.update_of_ne same]
  · have said : Function.update q.seq (pr % (q.mask + 1)) (pr + q.mask + 1)
        (t % (q.mask + 1)) = t + 1 := said
    by_cases same : t % (q.mask + 1) = pr % (q.mask + 1)
    · rw [same, Function.update_self] at said
      have cell : (t + 1) % (q.mask + 1) = t % (q.mask + 1) := by
        rw [← said, same, Nat.add_assoc, Nat.add_mod_right]
      exact absurd cell (succ_mod_ne known.two_le)
    · rw [Function.update_of_ne same] at said
      exact known.stored t said
  · show t ≤ Function.update q.seq _ _ _
    by_cases same : t = pr % (q.mask + 1)
    · have mod_le := Nat.mod_le pr (q.mask + 1)
      rw [same, Function.update_self]
      omega
    · rw [Function.update_of_ne same]
      exact known.first t below

end Ticketed

end Steps

end P3arsec.Fastflow
