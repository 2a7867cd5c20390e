import Mathlib

/-!
# Words in a memory of bytes

A word of some width is stored at an address with its low byte first. A store is seen by a load of
the same word, and by no load of other bytes. A loop that goes through an array upwards and stores
each word again in fewer bytes reads no byte that it has written.
-/

namespace P3arsec.Lib

/-- A memory of bytes. -/
abbrev Bytes := Nat → UInt8

/-- The word at an address. -/
def load (width : Nat) (memory : Bytes) (address : Nat) : Nat :=
  match width with
  | 0 => 0
  | width + 1 => (memory address).toNat + 256 * load width memory (address + 1)

/-- The memory with a word at an address. The high bits of a value that is too great are lost. -/
def store (width : Nat) (memory : Bytes) (address value : Nat) : Bytes :=
  match width with
  | 0 => memory
  | width + 1 =>
    store width (Function.update memory address (UInt8.ofNat value)) (address + 1) (value / 256)

/-- A load depends on the bytes of its word only. -/
theorem load_congr {width address : Nat} {memory other : Bytes}
    (same : ∀ x, address ≤ x → x < address + width → memory x = other x) :
    load width memory address = load width other address := by
  induction width generalizing address with
  | zero => rfl
  | succ width ih =>
    have first := same address le_rfl (by omega)
    have rest : load width memory (address + 1) = load width other (address + 1) :=
      ih fun x low high => same x (by omega) (by omega)
    simp only [load, first, rest]

/-- A store leaves the other bytes. -/
theorem store_outside {width address value x : Nat} {memory : Bytes}
    (outside : x < address ∨ address + width ≤ x) :
    store width memory address value x = memory x := by
  induction width generalizing address value memory with
  | zero => rfl
  | succ width ih =>
    rw [store, ih (by omega), Function.update_of_ne (by omega)]

/-- A stored word is loaded again. -/
theorem load_store (width address value : Nat) (memory : Bytes) :
    load width (store width memory address value) address = value % 256 ^ width := by
  induction width generalizing address value memory with
  | zero => simp [load, Nat.mod_one]
  | succ width ih =>
    have low : (UInt8.ofNat value).toNat = value % 256 := by simp
    rw [load, store, ih, store_outside (Or.inl (by omega)), Function.update_self, low, pow_succ',
      Nat.mod_mul]

/-- The words of an array, changed and stored in fewer bytes at the place of the narrower array. -/
def narrow (change : Nat → Nat) (wide width size : Nat) (memory : Bytes) : Bytes :=
  (List.range size).foldl (fun memory i =>
    store width memory (width * i) (change (load wide memory (wide * i)))) memory

/-- After some iterations the words passed are in the narrower array, and the bytes behind them have
not been written. -/
theorem narrow_spec (change : Nat → Nat) {wide width : Nat} (narrower : width ≤ wide)
    (size : Nat) (memory : Bytes) :
    (∀ i < size, load width (narrow change wide width size memory) (width * i) =
        change (load wide memory (wide * i)) % 256 ^ width) ∧
      ∀ x, width * size ≤ x → narrow change wide width size memory x = memory x := by
  induction size with
  | zero => exact ⟨fun i bound => absurd bound (Nat.not_lt_zero i), fun x _ => rfl⟩
  | succ size ih =>
    obtain ⟨passed, behind⟩ := ih
    have step : narrow change wide width (size + 1) memory =
        store width (narrow change wide width size memory) (width * size)
          (change (load wide (narrow change wide width size memory) (wide * size))) := by
      simp [narrow, List.range_succ]
    have unread : load wide (narrow change wide width size memory) (wide * size) =
        load wide memory (wide * size) := by
      apply load_congr
      intro x low _
      exact behind x ((Nat.mul_le_mul_right size narrower).trans low)
    rw [step, unread]
    constructor
    · intro i bound
      rcases Nat.lt_succ_iff_lt_or_eq.mp bound with earlier | rfl
      · rw [← passed i earlier]
        apply load_congr
        intro x _ high
        apply store_outside
        have before : width * i + width ≤ width * size := by
          rw [← Nat.mul_succ]
          exact Nat.mul_le_mul_left width earlier
        omega
      · rw [load_store]
    · intro x later
      rw [Nat.mul_succ] at later
      rw [store_outside (by omega)]
      exact behind x (by omega)

end P3arsec.Lib
