import Mathlib

/-!
# Windows of a circular array

A circular array continues at its begin behind its end. `place` is the position some places behind a
start, and a window is a list that lies in the array from a start on. A window grows at its end and
shrinks at its start; the start is at the place of the next entry again.
-/

namespace P3arsec.Lib

variable {α : Type}

/-- The position that lies some places behind a start. -/
def place (size start i : Nat) : Nat :=
  if start + i < size then start + i else start + i - size

/-- The first place. -/
theorem place_zero {size start : Nat} (below : start < size) : place size start 0 = start :=
  if_pos below

/-- The places are in the buffer. -/
theorem place_lt {size start i : Nat} (below : start < size) (room : i ≤ size) :
    place size start i < size := by
  unfold place
  split <;> omega

/-- Places of one turn differ. -/
theorem place_injective {size start i j : Nat} (room : i < size) (room' : j < size)
    (same : place size start i = place size start j) : i = j := by
  unfold place at same
  split at same <;> split at same <;> omega

/-- The places behind the next start. -/
theorem place_next {size start i : Nat} (below : start < size) (room : i < size) :
    place size (place size start 1) i = place size start (i + 1) := by
  unfold place
  split_ifs <;> omega

/-- A list lies in a circular array from a start on. -/
structure Window (size : Nat) (data : Nat → Option α) (start : Nat) (held : List α) : Prop where
  /-- The start is in the array. -/
  start_lt : start < size
  /-- The list fits. -/
  length_le : held.length ≤ size
  /-- Each entry is at its place. -/
  entry : ∀ i (below : i < held.length), data (place size start i) = some held[i]

namespace Window

variable {size start : Nat} {data : Nat → Option α} {held rest : List α} {x : α}

/-- The empty window. -/
theorem empty (below : start < size) : Window size data start [] :=
  ⟨below, Nat.zero_le _, fun _ absurd => nomatch absurd⟩

/-- A window grows at its end. -/
theorem push (window : Window size data start held) (room : held.length < size) (x : α) :
    Window size (Function.update data (place size start held.length) (some x)) start
      (held ++ [x]) := by
  refine ⟨window.start_lt, ?_, fun i below => ?_⟩
  · rw [List.length_append, List.length_singleton]
    exact room
  · rw [List.length_append, List.length_singleton] at below
    by_cases last : i = held.length
    · subst last
      rw [Function.update_self, List.getElem_append_right le_rfl]
      simp
    · have inside : i < held.length := by omega
      have apart : place size start i ≠ place size start held.length := fun same =>
        last (place_injective (inside.trans room) room same)
      rw [Function.update_of_ne apart, List.getElem_append_left inside]
      exact window.entry i inside

/-- The first entry is at the start. -/
theorem first (window : Window size data start (x :: rest)) : data start = some x := by
  have entry := window.entry 0 (Nat.succ_pos _)
  rwa [place_zero window.start_lt] at entry

/-- A window shrinks at its start. -/
theorem pop (window : Window size data start (x :: rest)) :
    Window size data (place size start 1) rest := by
  have room := window.length_le
  rw [List.length_cons] at room
  refine ⟨place_lt window.start_lt (by omega), by omega, fun i below => ?_⟩
  rw [place_next window.start_lt (below.trans room)]
  exact window.entry (i + 1) (Nat.succ_lt_succ below)

end Window

/-- A place behind a place. -/
theorem place_place {size start i j : Nat} (below : start < size) (room : i ≤ size)
    (room' : j < size) : place size (place size start i) j =
      place size start (if i + j < size then i + j else i + j - size) := by
  unfold place
  split_ifs <;> omega

/-- The part of a batch that is written when the first `left` entries are not. -/
def ahead (left : Nat) (batch : List α) (j : Nat) : Option α :=
  if left ≤ j then batch[j]? else none

/-- Nothing is ahead in an empty batch. -/
@[simp] theorem ahead_nil (left j : Nat) : ahead left ([] : List α) j = none := by
  simp [ahead]

/-- Nothing is ahead when all of the batch is left. -/
@[simp] theorem ahead_length (batch : List α) (j : Nat) : ahead batch.length batch j = none := by
  unfold ahead
  split
  · next beyond => exact List.getElem?_eq_none beyond
  · rfl

/-- A window whose array is free behind it, up to the written part of a batch that is to join the
window as a whole. -/
structure Slots (size : Nat) (data : Nat → Option α) (start : Nat) (held : List α) (left : Nat)
    (batch : List α) : Prop extends Window size data start held where
  /-- What lies behind the window. -/
  free : ∀ i, held.length ≤ i → i < size →
    data (place size start i) = ahead left batch (i - held.length)
  /-- The first entry of a batch is written last. -/
  left_pos : batch ≠ [] → 0 < left
  /-- The batch fits. -/
  room : held.length + batch.length ≤ size

namespace Slots

variable {size start left : Nat} {data : Nat → Option α} {held batch rest : List α} {x : α}

/-- An array without entries. -/
theorem empty (below : start < size) : Slots size (fun _ => (none : Option α)) start [] 0 [] := by
  refine ⟨.empty below, fun i _ _ => ?_, fun absurd => absurd rfl |>.elim, ?_⟩
  · rw [ahead_nil]
  · exact Nat.zero_le _

/-- The first cell behind the window is free. -/
theorem ahead_zero (slots : Slots size data start held left batch) : ahead left batch 0 = none := by
  unfold ahead
  split
  · have none_left : batch = [] := by
      by_contra some_left
      have := slots.left_pos some_left
      omega
    rw [none_left]
    rfl
  · rfl

/-- The cell at the start is free where nothing is held. -/
theorem start_isNone (slots : Slots size data start held left batch) :
    (data start).isNone = true ↔ held = [] := by
  cases held with
  | nil =>
    have cell := slots.free 0 le_rfl (by have := slots.start_lt; omega)
    rw [place_zero slots.start_lt] at cell
    simp [cell, slots.ahead_zero]
  | cons x rest => simp [slots.toWindow.first]

/-- A cell of the turn that begins behind the window is free where the window leaves it. -/
theorem behind_isNone (slots : Slots size data start held left []) {j : Nat} (below : j < size) :
    (data (place size (place size start held.length) j)).isNone = true ↔
      held.length + j < size := by
  rw [place_place slots.start_lt slots.length_le below]
  split
  · next inside =>
    simp [slots.free _ (Nat.le_add_right _ _) inside, inside]
  · next wraps =>
    have length_le := slots.length_le
    have inside : held.length + j - size < held.length := by omega
    simp [slots.entry _ inside, wraps]

/-- The cell behind the window is free where there is room. -/
theorem end_isNone (slots : Slots size data start held left []) :
    (data (place size start held.length)).isNone = true ↔ held.length < size := by
  have positive : 0 < size := by have := slots.start_lt; omega
  have known := slots.behind_isNone positive
  rwa [place_zero (place_lt slots.start_lt slots.length_le)] at known

/-- A batch is taken up. -/
theorem begin_batch (slots : Slots size data start held left [])
    (room : held.length + batch.length ≤ size) :
    Slots size data start held batch.length batch := by
  refine ⟨slots.toWindow, fun i behind below => ?_, List.length_pos_of_ne_nil, room⟩
  rw [slots.free i behind below, ahead_nil, ahead_length]

/-- An entry of the batch that is not its first one is written. -/
theorem write (slots : Slots size data start held (left + 1) batch) (positive : 0 < left)
    (inside : left < batch.length) :
    Slots size (Function.update data (place size (place size start held.length) left) batch[left]?)
      start held left batch := by
  have room := slots.room
  have at_entry : place size (place size start held.length) left =
      place size start (held.length + left) := by
    rw [place_place slots.start_lt slots.length_le (by omega), if_pos (by omega)]
  rw [at_entry]
  refine ⟨⟨slots.start_lt, slots.length_le, fun i below => ?_⟩, fun i behind below => ?_,
    fun _ => positive, room⟩
  · have apart : place size start i ≠ place size start (held.length + left) := fun same => by
      have := place_injective (by omega) (by omega) same
      omega
    rw [Function.update_of_ne apart]
    exact slots.entry i below
  · by_cases here : i = held.length + left
    · rw [here, Function.update_self, Nat.add_sub_cancel_left]
      simp [ahead]
    · have apart : place size start i ≠ place size start (held.length + left) := fun same =>
        here (place_injective below (by omega) same)
      rw [Function.update_of_ne apart, slots.free i behind below]
      unfold ahead
      split_ifs <;> first | rfl | omega

/-- With its first entry the whole batch joins the window. -/
theorem publish (slots : Slots size data start held 1 (x :: rest)) :
    Slots size (Function.update data (place size start held.length) (some x)) start
      (held ++ x :: rest) 0 [] := by
  have room := slots.room
  rw [List.length_cons] at room
  refine ⟨⟨slots.start_lt, ?_, fun i below => ?_⟩, fun i behind below => ?_,
    fun absurd => absurd rfl |>.elim, ?_⟩
  · simpa using room
  · simp only [List.length_append, List.length_cons] at below
    by_cases here : i = held.length
    · subst here
      rw [Function.update_self, List.getElem_append_right le_rfl]
      simp
    · have apart : place size start i ≠ place size start held.length := fun same =>
        here (place_injective (by omega) (by omega) same)
      rw [Function.update_of_ne apart]
      by_cases inside : i < held.length
      · rw [List.getElem_append_left inside]
        exact slots.entry i inside
      · rw [slots.free i (by omega) (by omega), List.getElem_append_right (by omega)]
        simp only [ahead]
        rw [if_pos (by omega), List.getElem?_eq_getElem (by simp; omega)]
  · simp only [List.length_append, List.length_cons] at behind
    have apart : place size start i ≠ place size start held.length := fun same => by
      have := place_injective below (by omega) same
      omega
    rw [Function.update_of_ne apart, slots.free i (by omega) below]
    have beyond : (x :: rest).length ≤ i - held.length := by simp; omega
    simp [ahead, List.getElem?_eq_none beyond]
  · simpa using room

/-- A single entry joins the window. -/
theorem push (slots : Slots size data start held left []) (room : held.length < size) (x : α) :
    Slots size (Function.update data (place size start held.length) (some x)) start
      (held ++ [x]) 0 [] := by
  have fits : held.length + [x].length ≤ size := room
  exact (slots.begin_batch fits).publish

/-- The cell at the start is freed. -/
theorem pop (slots : Slots size data start (x :: held) left batch) :
    Slots size (Function.update data start none) (place size start 1) held left batch := by
  have room := slots.room
  have start_lt := slots.start_lt
  rw [List.length_cons] at room
  have next : ∀ i, i < size → place size (place size start 1) i = place size start (i + 1) :=
    fun i below => place_next start_lt below
  have around : place size start size = start := by unfold place; split_ifs <;> omega
  have apart : ∀ i, i + 1 < size → place size start (i + 1) ≠ start := fun i below same => by
    have := place_injective (i := i + 1) (j := 0) below (by omega)
      (same.trans (place_zero start_lt).symm)
    omega
  refine ⟨⟨place_lt start_lt (by omega), by omega, fun i below => ?_⟩, fun i behind below => ?_,
    slots.left_pos, by omega⟩
  · rw [next i (by omega), Function.update_of_ne (apart i (by omega))]
    exact slots.entry (i + 1) (by simpa using below)
  · rw [next i below]
    by_cases last : i + 1 = size
    · rw [last, around, Function.update_self]
      have beyond : batch.length ≤ i - held.length := by omega
      simp [ahead, List.getElem?_eq_none beyond]
    · rw [Function.update_of_ne (apart i (by omega)),
        slots.free (i + 1) (by simpa using behind) (by omega)]
      congr 1
      simp

end Slots

end P3arsec.Lib
