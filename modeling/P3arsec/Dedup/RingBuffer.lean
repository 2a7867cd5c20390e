import P3arsec.Lib.Circular

/-!
# Ring buffers

The ring buffers of dedup have two `int` positions and a `size_t` size. One entry stays unused, so
that a full buffer differs from an empty one: a buffer is full when the head is the position in
front of the tail, which the code computes in `size_t`. A buffer `Holds` the list that lies from its
tail on. In a `Valid` buffer, which exists for each capacity below `INT_MAX`, inserting and removing
are the operations of a bounded list. The head of a larger buffer comes to `INT_MAX`, where the
increment is undefined.
-/

namespace P3arsec.Dedup

open P3arsec.Lib

/-- `INT_MAX`. -/
def intMax : Nat := 2 ^ 31 - 1

/-- `ringbuffer_t` with pointers that are not null. -/
structure Ring (α : Type) where
  /-- The entries of `data`; an entry that was not written may be anything. -/
  data : Nat → Option α
  /-- Number of entries that were allocated for `data`. -/
  room : Nat
  /-- `head`. -/
  head : Nat
  /-- `tail`. -/
  tail : Nat
  /-- `size`. -/
  size : Nat
  /-- `last`. -/
  last : Bool

/-- `x++` of an `int`. -/
def increment (x : Nat) : Option Nat := if x < intMax then some (x + 1) else none

namespace Ring

variable {α : Type}

/-- `ringbuffer_init`, with what the allocated memory holds. -/
def init (garbage : Nat → Option α) (size : Nat) : Ring α where
  data := garbage
  room := 8 * (size + 1) % 2 ^ 64 / 8
  head := 0
  tail := 0
  size := (size + 1) % 2 ^ 64
  last := false

/-- `ringbuffer_isEmpty`. -/
def isEmpty (buf : Ring α) : Bool := buf.tail == buf.head

/-- `ringbuffer_isFull`: `head == (tail-1+size)%size`, where `tail-1` is converted to `size_t`. -/
def isFull (buf : Ring α) : Option Bool :=
  if buf.size = 0 then none
  else some (buf.head ==
    ((if buf.tail = 0 then 2 ^ 64 - 1 else buf.tail - 1) + buf.size) % 2 ^ 64 % buf.size)

/-- `ringbuffer_remove`, with a null pointer where there is no element. -/
def remove (buf : Ring α) : Option (Option α × Ring α) :=
  if buf.isEmpty then some (none, buf)
  else do
    guard (buf.tail < buf.room)
    let tail ← increment buf.tail
    return (buf.data buf.tail, { buf with tail := if buf.size ≤ tail then 0 else tail })

/-- `ringbuffer_insert`, with the information that it succeeded. -/
def insert (buf : Ring α) (ptr : α) : Option (Bool × Ring α) := do
  let full ← buf.isFull
  if full then return (false, buf)
  else
    guard (buf.head < buf.room)
    let head ← increment buf.head
    return (true, { buf with
      data := Function.update buf.data buf.head (some ptr)
      head := if head = buf.size then 0 else head })

/-- The loop that removes the elements until the buffer is empty, with what it does with each one
and with a null pointer; none when the fuel runs out. -/
def drain {σ : Type} (null : σ → Option σ) (body : σ → α → Option σ) :
    Nat → Ring α → σ → Option σ
  | 0, _, _ => none
  | fuel + 1, buf, state =>
    if buf.isEmpty then some state
    else do
      let (ptr, buf) ← buf.remove
      match ptr with
      | none => null state
      | some x => drain null body fuel buf (← body state x)

/-- `ringbuffer_setLast`. -/
def setLast (buf : Ring α) : Ring α := { buf with last := true }

/-- The buffer holds a list, which lies between the tail and the head. -/
structure Holds (buf : Ring α) (held : List α) : Prop where
  /-- The positions can be added in `size_t`. -/
  size_le : buf.size ≤ 2 ^ 63
  /-- The array is allocated. -/
  size_le_room : buf.size ≤ buf.room
  /-- One entry is unused. -/
  length_lt : held.length < buf.size
  /-- The elements lie from the tail on. -/
  window : Window buf.size buf.data buf.tail held
  /-- The head is behind them. -/
  head_eq : buf.head = place buf.size buf.tail held.length

/-- The buffer holds a list, and its positions stay below `INT_MAX`. -/
structure Valid (buf : Ring α) (held : List α) : Prop extends buf.Holds held where
  /-- The array can be counted by an `int`. -/
  small : buf.size ≤ intMax

/-- The number of elements that a buffer can hold. -/
def capacity (buf : Ring α) : Nat := buf.size - 1

section

variable {buf : Ring α} {held rest : List α} {x : α}

/-- A buffer whose array can be allocated is empty at the begin. -/
theorem init_holds (garbage : Nat → Option α) {size : Nat} (fits : size + 1 < 2 ^ 61) :
    (init garbage size).Holds [] := by
  have whole : (size + 1) % 2 ^ 64 = size + 1 := Nat.mod_eq_of_lt (by omega)
  have bytes : 8 * (size + 1) % 2 ^ 64 / 8 = size + 1 := by
    rw [Nat.mod_eq_of_lt (by omega), Nat.mul_div_cancel_left _ (by decide)]
  have positive : 0 < (size + 1) % 2 ^ 64 := by omega
  refine ⟨?_, ?_, positive, Window.empty positive, (place_zero positive).symm⟩
  · show (size + 1) % 2 ^ 64 ≤ 2 ^ 63
    omega
  · rw [init, whole, bytes]

/-- A buffer whose capacity is below `INT_MAX` is valid at the begin. -/
theorem init_valid (garbage : Nat → Option α) {size : Nat} (small : size < intMax) :
    (init garbage size).Valid [] := by
  simp only [intMax] at small
  refine ⟨init_holds garbage (by omega), ?_⟩
  show (size + 1) % 2 ^ 64 ≤ 2 ^ 31 - 1
  omega

/-- The buffer holds no more than its capacity. -/
theorem Holds.length_le (holds : buf.Holds held) : held.length ≤ buf.capacity :=
  Nat.le_sub_one_of_lt holds.length_lt

/-- The head is inside the array. -/
theorem Holds.head_lt (holds : buf.Holds held) : buf.head < buf.size := by
  rw [holds.head_eq]
  exact place_lt holds.window.start_lt holds.length_lt.le

/-- The test for an empty buffer. -/
theorem Holds.isEmpty_eq (holds : buf.Holds held) : buf.isEmpty = held.isEmpty := by
  have start := holds.window.start_lt
  have few := holds.length_lt
  rw [isEmpty, holds.head_eq, Bool.eq_iff_iff, beq_iff_eq, List.isEmpty_iff_length_eq_zero]
  unfold place
  split <;> omega

/-- The position in front of the tail. -/
theorem isFull_eq (positive : 0 < buf.size) (small : buf.size ≤ 2 ^ 63)
    (inside : buf.tail < buf.size) :
    buf.isFull = some (buf.head == if buf.tail = 0 then buf.size - 1 else buf.tail - 1) := by
  rw [isFull, if_neg positive.ne']
  by_cases first : buf.tail = 0
  · have wrapped : (2 ^ 64 - 1 + buf.size) % 2 ^ 64 = buf.size - 1 := by omega
    rw [if_pos first, if_pos first, wrapped, Nat.mod_eq_of_lt (by omega)]
  · have whole : (buf.tail - 1 + buf.size) % 2 ^ 64 = buf.tail - 1 + buf.size := by omega
    rw [if_neg first, if_neg first, whole, Nat.add_mod_right, Nat.mod_eq_of_lt (by omega)]

/-- The test for a full buffer. -/
theorem Holds.isFull_eq (holds : buf.Holds held) :
    buf.isFull = some (decide (held.length = buf.capacity)) := by
  have start := holds.window.start_lt
  have few := holds.length_lt
  have positive : 0 < buf.size := by omega
  rw [Ring.isFull_eq positive holds.size_le start, holds.head_eq, capacity, Option.some.injEq,
    Bool.eq_iff_iff, beq_iff_eq, decide_eq_true_iff]
  unfold place
  split <;> split <;> omega

/-- An increment below the greatest `int`. -/
theorem increment_eq {x : Nat} (below : x < intMax) : increment x = some (x + 1) := if_pos below

/-- Removing from an empty buffer. -/
theorem Holds.remove_nil (holds : buf.Holds []) : buf.remove = some (none, buf) :=
  if_pos holds.isEmpty_eq

/-- Removing takes the oldest element and moves the tail. -/
theorem Holds.remove_cons (holds : buf.Holds (x :: rest)) (countable : buf.tail < intMax) :
    buf.remove = some (some x, { buf with tail := place buf.size buf.tail 1 }) ∧
      { buf with tail := place buf.size buf.tail 1 }.Holds rest := by
  have start := holds.window.start_lt
  have few := holds.length_lt
  rw [List.length_cons] at few
  have next : (if buf.size ≤ buf.tail + 1 then 0 else buf.tail + 1) =
      place buf.size buf.tail 1 := by
    unfold place
    split <;> split <;> omega
  constructor
  · have some : buf.isEmpty = false := holds.isEmpty_eq
    have inside : buf.tail < buf.room := start.trans_le holds.size_le_room
    simp only [remove, some, inside, increment_eq countable, holds.window.first,
      Bool.false_eq_true, if_false, guard, if_true, ← next]
    rfl
  · have fewer : rest.length < buf.size := by omega
    refine ⟨holds.size_le, holds.size_le_room, fewer, holds.window.pop, ?_⟩
    show buf.head = place buf.size (place buf.size buf.tail 1) rest.length
    rw [place_next start (by omega), holds.head_eq, List.length_cons]

/-- The loop over the elements does its body for each one in order, as long as the tail can be
counted. -/
theorem Holds.drain_eq {σ : Type} (null : σ → Option σ) (body : σ → α → Option σ)
    (holds : buf.Holds held)
    (countable : ∀ i < held.length, place buf.size buf.tail i < intMax) {fuel : Nat}
    (enough : held.length < fuel) (state : σ) :
    buf.drain null body fuel state = held.foldlM body state := by
  induction held generalizing buf fuel state with
  | nil =>
    obtain ⟨fuel, rfl⟩ : ∃ less, fuel = less + 1 := ⟨fuel - 1, by omega⟩
    exact if_pos holds.isEmpty_eq
  | cons x rest ih =>
    obtain ⟨fuel, rfl⟩ : ∃ less, fuel = less + 1 := ⟨fuel - 1, by omega⟩
    have start := holds.window.start_lt
    have few := holds.length_lt
    rw [List.length_cons] at enough few
    have notEmpty : buf.isEmpty = false := holds.isEmpty_eq
    have below := countable 0 (Nat.succ_pos _)
    rw [place_zero start] at below
    obtain ⟨removes, holds'⟩ := holds.remove_cons below
    have countable' : ∀ i < rest.length,
        place buf.size (place buf.size buf.tail 1) i < intMax := by
      intro i inside
      rw [place_next start (by omega)]
      exact countable (i + 1) (Nat.succ_lt_succ inside)
    rw [drain, notEmpty, removes, List.foldlM_cons]
    show (body state x).bind _ = (body state x).bind _
    congr 1
    funext state
    exact ih holds' countable' (by omega) state

/-- The loop over the elements of a valid buffer. -/
theorem Valid.drain_eq {σ : Type} (null : σ → Option σ) (body : σ → α → Option σ)
    (valid : buf.Valid held) (state : σ) :
    buf.drain null body buf.size state = held.foldlM body state :=
  valid.toHolds.drain_eq null body
    (fun _ inside => (place_lt valid.window.start_lt
      (inside.le.trans valid.length_lt.le)).trans_le valid.small) valid.length_lt state

/-- Inserting keeps the head countable and does not move the tail. -/
theorem insert_countable {after : Ring α} {inserted : Bool}
    (inserts : buf.insert x = some (inserted, after)) (small : buf.head ≤ intMax) :
    after.tail = buf.tail ∧ after.head ≤ intMax := by
  rw [insert] at inserts
  obtain ⟨full, -, rest⟩ := Option.bind_eq_some_iff.mp inserts
  cases full with
  | true =>
    obtain ⟨-, rfl⟩ := Prod.mk.inj (Option.some.inj rest)
    exact ⟨rfl, small⟩
  | false =>
    obtain ⟨-, -, writes⟩ := Option.bind_eq_some_iff.mp rest
    obtain ⟨head, counts, ends⟩ := Option.bind_eq_some_iff.mp writes
    obtain ⟨-, rfl⟩ := Prod.mk.inj (Option.some.inj ends)
    refine ⟨rfl, ?_⟩
    unfold increment at counts
    split at counts
    · obtain rfl := Option.some.inj counts
      dsimp only
      split <;> omega
    · exact nomatch counts

/-- Inserting fails when the buffer is full. -/
theorem Holds.insert_full (holds : buf.Holds held) (full : held.length = buf.capacity) (x : α) :
    buf.insert x = some (false, buf) := by
  simp only [insert, holds.isFull_eq, full, decide_true, Option.bind_eq_bind, Option.bind_some,
    if_true]
  rfl

/-- The buffer with one more element. -/
def append (buf : Ring α) (held : List α) (x : α) : Ring α :=
  { buf with
    data := Function.update buf.data buf.head (some x)
    head := place buf.size buf.tail (held.length + 1) }

/-- Inserting appends where there is room. -/
theorem Holds.insert_append (holds : buf.Holds held) (room : held.length < buf.capacity)
    (countable : buf.head < intMax) (x : α) :
    buf.insert x = some (true, buf.append held x) ∧ (buf.append held x).Holds (held ++ [x]) := by
  have start := holds.window.start_lt
  have inside := holds.head_lt
  have more : held.length + 1 < buf.size := Nat.add_lt_of_lt_sub room
  have next : (if buf.head + 1 = buf.size then 0 else buf.head + 1) =
      place buf.size buf.tail (held.length + 1) := by
    rw [holds.head_eq]
    unfold place
    split_ifs <;> omega
  constructor
  · have notFull : decide (held.length = buf.capacity) = false := decide_eq_false room.ne
    have allocated : buf.head < buf.room := inside.trans_le holds.size_le_room
    simp only [insert, holds.isFull_eq, notFull, allocated, increment_eq countable, next,
      Option.bind_eq_bind, Option.bind_some, Bool.false_eq_true, if_false, guard, if_true]
    rfl
  · have grown := holds.window.push (Nat.lt_of_succ_lt more) x
    rw [← holds.head_eq] at grown
    refine ⟨holds.size_le, holds.size_le_room, ?_, grown, ?_⟩
    · rw [List.length_append, List.length_singleton]
      exact more
    · rw [List.length_append, List.length_singleton]
      rfl

/-- Inserting where there is room is undefined when the head is at `INT_MAX`. -/
theorem Holds.insert_undefined (holds : buf.Holds held) (room : held.length < buf.capacity)
    (last : buf.head = intMax) (x : α) : buf.insert x = none := by
  have notFull : decide (held.length = buf.capacity) = false := decide_eq_false room.ne
  have allocated : buf.head < buf.room := holds.head_lt.trans_le holds.size_le_room
  have overflows : increment buf.head = none := if_neg (by rw [last]; exact lt_irrefl _)
  simp only [insert, holds.isFull_eq, notFull, allocated, overflows, Option.bind_eq_bind,
    Option.bind_some, Bool.false_eq_true, if_false, guard, if_true]
  rfl

/-- The mark does not change what the buffer holds. -/
theorem Valid.setLast (valid : buf.Valid held) : buf.setLast.Valid held :=
  ⟨⟨valid.size_le, valid.size_le_room, valid.length_lt, valid.window, valid.head_eq⟩, valid.small⟩

/-- Removing takes the oldest element of a valid buffer. -/
theorem Valid.remove_cons (valid : buf.Valid (x :: rest)) :
    ∃ after, buf.remove = some (some x, after) ∧ after.Valid rest ∧ after.size = buf.size ∧
      after.last = buf.last := by
  have inside := valid.window.start_lt.trans_le valid.small
  obtain ⟨removes, holds⟩ := valid.toHolds.remove_cons inside
  exact ⟨_, removes, ⟨holds, valid.small⟩, rfl, rfl⟩

/-- Inserting appends to a valid buffer where there is room. -/
theorem Valid.insert_append (valid : buf.Valid held) (room : held.length < buf.capacity) (x : α) :
    ∃ after, buf.insert x = some (true, after) ∧ after.Valid (held ++ [x]) ∧
      after.size = buf.size ∧ after.last = buf.last := by
  have inside := valid.head_lt.trans_le valid.small
  obtain ⟨inserts, holds⟩ := valid.toHolds.insert_append room inside x
  exact ⟨_, inserts, ⟨holds, valid.small⟩, rfl, rfl⟩

end

end Ring

end P3arsec.Dedup
