import Mathlib

/-!
# Even parts of a range

`nv` items are divided among `nw` workers. Each worker takes `nv / nw` items in a row, and the first
`nv % nw` workers take one more. Part `i` begins at `begins nv nw i` and has `size nv nw i` items;
the parts follow one another and make up the whole range.
-/

namespace P3arsec.Lib.Chunks

variable {nv nw : Nat}

/-- Where a part begins when parts have `chunk` items and the first `plus` of them one more. -/
def offset (chunk plus k : Nat) : Nat := k * chunk + min plus k

section Offset

variable {chunk plus count k : Nat}

/-- The first chunk begins at zero. -/
@[simp] theorem offset_zero : offset chunk plus 0 = 0 := by simp [offset]

/-- The next chunk begins where one ends. -/
theorem offset_succ :
    offset chunk plus (k + 1) = offset chunk plus k + chunk + if 0 < plus - k then 1 else 0 := by
  unfold offset
  rw [Nat.succ_mul]
  split <;> omega

/-- The parts together have all items. -/
theorem offset_count (plus_le : plus ≤ count) :
    offset chunk plus count = count * chunk + plus := by
  rw [offset, min_eq_left plus_le]

/-- A later chunk begins at a greater offset. -/
theorem offset_mono {j : Nat} (less : j ≤ k) : offset chunk plus j ≤ offset chunk plus k :=
  add_le_add (Nat.mul_le_mul_right chunk less) (min_le_min_left plus less)

/-- The chunks end with the total. -/
theorem offset_le (known : k ≤ count) :
    offset chunk plus k ≤ count * chunk + plus := by
  have part := Nat.mul_le_mul_right chunk known
  unfold offset
  omega

/-- Only the last part ends with the items, when there are not more parts than items. -/
theorem offset_lt_iff (known : k ≤ count) (plus_le : plus ≤ count)
    (enough : count ≤ count * chunk + plus) :
    offset chunk plus k < count * chunk + plus ↔ k < count := by
  rcases known.lt_or_eq with less | rfl
  · refine iff_of_true ?_ less
    unfold offset
    rcases Nat.eq_zero_or_pos chunk with rfl | positive
    · omega
    · have part := Nat.mul_le_mul_right chunk (show k + 1 ≤ count from less)
      rw [Nat.succ_mul] at part
      omega
  · rw [offset_count plus_le]
    exact iff_of_false (lt_irrefl _) (lt_irrefl _)

end Offset

/-- Where a part begins. -/
def begins (nv nw i : Nat) : Nat := i * (nv / nw) + min (nv % nw) i

/-- How many items a part has. -/
def size (nv nw i : Nat) : Nat := if i < nv % nw then nv / nw + 1 else nv / nw

/-- The first block begins at zero. -/
@[simp] theorem begins_zero : begins nv nw 0 = 0 := by simp [begins]

/-- A part begins where the one before it ends. -/
theorem begins_succ (i : Nat) : begins nv nw (i + 1) = begins nv nw i + size nv nw i := by
  unfold begins size
  rw [Nat.succ_mul]
  split
  · rw [min_eq_right (by omega), min_eq_right (by omega)]
    omega
  · rw [min_eq_left (by omega), min_eq_left (by omega)]
    omega

/-- The last part ends with the range. -/
theorem begins_last (positive : 0 < nw) : begins nv nw nw = nv := by
  unfold begins
  rw [min_eq_left (Nat.mod_lt _ positive).le]
  exact Nat.div_add_mod nv nw

/-- The begins are in order. -/
theorem begins_mono {i j : Nat} (less : i ≤ j) : begins nv nw i ≤ begins nv nw j := by
  induction j, less using Nat.le_induction with
  | base => exact le_rfl
  | succ j _ ih =>
    rw [begins_succ]
    omega

/-- A part lies in the range. -/
theorem ends_le {i : Nat} (known : i < nw) : begins nv nw i + size nv nw i ≤ nv := by
  rw [← begins_succ]
  exact (begins_mono known).trans_eq (begins_last (by omega))

/-- Every item is in a part. -/
theorem exists_part (positive : 0 < nw) {m : Nat} (known : m < nv) :
    ∃ i < nw, begins nv nw i ≤ m ∧ m < begins nv nw i + size nv nw i := by
  have reach : ∀ n, m < begins nv nw n →
      ∃ i < n, begins nv nw i ≤ m ∧ m < begins nv nw i + size nv nw i := by
    intro n
    induction n with
    | zero => simp
    | succ n ih =>
      intro below
      by_cases earlier : m < begins nv nw n
      · obtain ⟨i, less, here⟩ := ih earlier
        exact ⟨i, by omega, here⟩
      · exact ⟨n, by omega, by omega, by rwa [← begins_succ]⟩
  exact reach nw (by rwa [begins_last positive])

/-- Parts that follow one another make up a range. -/
theorem flatMap_parts (place : Nat → Nat) (mono : ∀ k, place k ≤ place (k + 1)) (n : Nat) :
    (List.range n).flatMap (fun k => List.range' (place k) (place (k + 1) - place k)) =
      List.range' (place 0) (place n - place 0) := by
  induction n with
  | zero => simp
  | succ n ih =>
    have first : place 0 ≤ place n := monotone_nat_of_le_succ mono (Nat.zero_le n)
    have last := mono n
    rw [List.range_succ, List.flatMap_append, ih, List.flatMap_singleton]
    conv_lhs =>
      rw [show List.range' (place n) (place (n + 1) - place n) =
        List.range' (place 0 + (place n - place 0)) (place (n + 1) - place n) by
          rw [Nat.add_sub_cancel' first]]
    rw [List.range'_append_1]
    congr 1
    omega

end P3arsec.Lib.Chunks
