import Mathlib

/-!
# The unit of the statistics

`print_stats` divides the totals by the greatest power of 1024 that none of them is below. The power
is a `size_t`, but the next one is computed in an `unsigned int`: behind 2^30 it is 0, and the first
test divides by it.
-/

namespace P3arsec.Dedup

/-- The totals of `stats_t`. -/
structure Stats where
  /-- `total_input`. -/
  totalInput : UInt64
  /-- `total_dedup`. -/
  totalDedup : UInt64
  /-- `total_compressed`. -/
  totalCompressed : UInt64
  /-- `total_output`. -/
  totalOutput : UInt64

/-- `unit_str_size`, the number of entries of `unit_str`. -/
def unitStrSize : Nat := 7

namespace Stats

/-- `total / unit_div_next <= 0`, which has no result where the divisor is 0. -/
def below (total : UInt64) (unitDivNext : UInt32) : Option Bool :=
  if unitDivNext = 0 then none else some (total / unitDivNext.toUInt64 ≤ 0)

variable (s : Stats)

/-- The tests of one pass: whether the loop breaks. -/
def breaks (unitDivNext : UInt32) : Option Bool := do
  if ← below s.totalInput unitDivNext then return true
  if ← below s.totalDedup unitDivNext then return true
  if ← below s.totalCompressed unitDivNext then return true
  below s.totalOutput unitDivNext

/-- The loop of `print_stats` over the units that are left: `unit_idx` and `unit_div`. -/
def selectUnit : Nat → Nat → UInt64 → Option (Nat × UInt64)
  | 0, unitIdx, unitDiv => some (unitIdx, unitDiv)
  | rounds + 1, unitIdx, unitDiv => do
    let unitDivNext := (unitDiv * 1024).toUInt32
    if ← s.breaks unitDivNext then some (unitIdx, unitDiv)
    else selectUnit rounds (unitIdx + 1) unitDivNext.toUInt64

/-- The unit that is selected. -/
def unit : Option (Nat × UInt64) := s.selectUnit unitStrSize 0 1

/-- The least of the totals. -/
def least : Nat :=
  min (min s.totalInput.toNat s.totalDedup.toNat) (min s.totalCompressed.toNat s.totalOutput.toNat)

/-- The comparison of the total with the quotient. -/
theorem below_eq (total : UInt64) {unitDivNext : UInt32} (some : unitDivNext ≠ 0) :
    below total unitDivNext = Option.some (decide (total.toNat < unitDivNext.toNat)) := by
  have positive : 0 < unitDivNext.toNat := by
    refine Nat.pos_of_ne_zero fun zero => some ?_
    exact UInt32.toNat_inj.mp zero
  unfold below
  rw [if_neg some]
  refine congrArg Option.some (decide_eq_decide.mpr ?_)
  rw [UInt64.le_iff_toNat_le, UInt64.toNat_div, UInt32.toNat_toUInt64]
  exact Nat.le_zero.trans (Nat.div_eq_zero_iff_lt positive)

/-- The loop breaks when one of the totals is below the next power. -/
theorem breaks_eq {unitDivNext : UInt32} (some : unitDivNext ≠ 0) :
    s.breaks unitDivNext = Option.some (decide (s.least < unitDivNext.toNat)) := by
  unfold breaks least
  simp only [below_eq _ some, min_lt_iff]
  by_cases input : s.totalInput.toNat < unitDivNext.toNat
  · simp [input]
  by_cases dedup : s.totalDedup.toNat < unitDivNext.toNat
  · simp [input, dedup]
  by_cases compressed : s.totalCompressed.toNat < unitDivNext.toNat
  · simp [input, dedup, compressed]
  · simp [input, dedup, compressed]

/-- One pass of the loop below 2^30. -/
theorem selectUnit_succ {rounds unitIdx : Nat} {unitDiv : UInt64} (unitDivNext : UInt32)
    (next : (unitDiv * 1024).toUInt32 = unitDivNext) (some : unitDivNext ≠ 0) :
    s.selectUnit (rounds + 1) unitIdx unitDiv =
      if s.least < unitDivNext.toNat then Option.some (unitIdx, unitDiv)
      else s.selectUnit rounds (unitIdx + 1) unitDivNext.toUInt64 := by
  rw [selectUnit, next, s.breaks_eq some]
  by_cases small : s.least < unitDivNext.toNat
  · simp [small]
  · simp [small]

/-- The unit is found as long as a total is below 2^30. -/
theorem unit_eq : s.unit =
    if s.least < 2 ^ 10 then some (0, 1)
    else if s.least < 2 ^ 20 then some (1, 2 ^ 10)
    else if s.least < 2 ^ 30 then some (2, 2 ^ 20)
    else none := by
  have last : s.selectUnit 4 3 (2 ^ 30 : UInt32).toUInt64 = none := by
    rw [selectUnit, show ((2 ^ 30 : UInt32).toUInt64 * 1024).toUInt32 = 0 by decide]
    rfl
  unfold unit unitStrSize
  rw [s.selectUnit_succ (2 ^ 10) (by decide) (by decide),
    s.selectUnit_succ (2 ^ 20) (by decide) (by decide),
    s.selectUnit_succ (2 ^ 30) (by decide) (by decide), last]
  rfl

/-- The loop ends with a unit of the table and its power of 1024 exactly when one of the totals is
below 2^30. -/
theorem unit_correct_iff : (∃ unitIdx unitDiv, s.unit = some (unitIdx, unitDiv) ∧
      unitIdx < unitStrSize ∧ unitDiv.toNat = 1024 ^ unitIdx ∧ unitDiv ≠ 0) ↔
    s.totalInput.toNat < 2 ^ 30 ∨ s.totalDedup.toNat < 2 ^ 30 ∨
      s.totalCompressed.toNat < 2 ^ 30 ∨ s.totalOutput.toNat < 2 ^ 30 := by
  have some : s.least < 2 ^ 30 ↔ s.totalInput.toNat < 2 ^ 30 ∨ s.totalDedup.toNat < 2 ^ 30 ∨
      s.totalCompressed.toNat < 2 ^ 30 ∨ s.totalOutput.toNat < 2 ^ 30 := by
    unfold least
    omega
  rw [← some, s.unit_eq]
  constructor
  · rintro ⟨unitIdx, unitDiv, found, -⟩
    by_contra large
    rw [if_neg (by omega), if_neg (by omega), if_neg large] at found
    exact nomatch found
  · intro small
    split_ifs with bytes kilobytes
    · exact ⟨0, 1, rfl, by decide, by decide, by decide⟩
    · exact ⟨1, 2 ^ 10, rfl, by decide, by decide, by decide⟩
    · exact ⟨2, 2 ^ 20, rfl, by decide, by decide, by decide⟩

/-- With totals of 1 GiB the loop divides by 0. -/
theorem unit_correct_fails : ¬∀ s : Stats, ∃ unitIdx unitDiv, s.unit = some (unitIdx, unitDiv) ∧
    unitIdx < unitStrSize ∧ unitDiv.toNat = 1024 ^ unitIdx ∧ unitDiv ≠ 0 := by
  intro all
  obtain ⟨unitIdx, unitDiv, found, -⟩ := all ⟨2 ^ 30, 2 ^ 30, 2 ^ 30, 2 ^ 30⟩
  rw [unit_eq, if_neg (by decide), if_neg (by decide), if_neg (by decide)] at found
  exact nomatch found

end Stats

end P3arsec.Dedup
