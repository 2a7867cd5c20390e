import Mathlib

/-!
# End marks in streams

A stream ends with a marked item. A channel is seen through the flags of its items, the oldest
first: it is quiet while no mark is in it, and closing when its youngest item, and no other,
carries the mark.
-/

namespace P3arsec.Lib

/-- No item carries the mark. -/
def Quiet (flags : List Bool) : Prop := ∀ flag ∈ flags, flag = false

/-- The last item carries the mark, and no other one does. -/
def Closing (flags : List Bool) : Prop := ∃ front, flags = front ++ [true] ∧ Quiet front

/-- No flags are quiet. -/
@[simp] theorem quiet_nil : Quiet [] := by
  simp [Quiet]

/-- The first flag and the others are quiet. -/
@[simp] theorem quiet_cons {flag : Bool} {flags : List Bool} :
    Quiet (flag :: flags) ↔ flag = false ∧ Quiet flags := by
  simp [Quiet]

/-- Two lists of flags are quiet. -/
@[simp] theorem quiet_append {front back : List Bool} :
    Quiet (front ++ back) ↔ Quiet front ∧ Quiet back := by
  simp only [Quiet, List.mem_append, or_imp, forall_and]

/-- No flags close nothing. -/
@[simp] theorem not_closing_nil : ¬Closing [] := by
  simp [Closing]

/-- Taking an unmarked item out leaves a closing stream closing. -/
@[simp] theorem closing_cons_false {flags : List Bool} :
    Closing (false :: flags) ↔ Closing flags := by
  constructor
  · rintro ⟨front, same, quiet⟩
    cases front with
    | nil => simp at same
    | cons flag front =>
      simp only [List.cons_append, List.cons.injEq] at same
      exact ⟨front, same.2, (quiet_cons.mp quiet).2⟩
  · rintro ⟨front, same, quiet⟩
    exact ⟨false :: front, by rw [same]; rfl, quiet_cons.mpr ⟨rfl, quiet⟩⟩

/-- Nothing comes after the mark. -/
@[simp] theorem closing_cons_true {flags : List Bool} :
    Closing (true :: flags) ↔ flags = [] := by
  constructor
  · rintro ⟨front, same, quiet⟩
    cases front with
    | nil => simpa using same
    | cons flag front =>
      simp only [List.cons_append, List.cons.injEq] at same
      have unmarked := (quiet_cons.mp quiet).1
      simp [unmarked] at same
  · rintro rfl
    exact ⟨[], rfl, quiet_nil⟩

/-- The oldest item of a closing stream is the mark and the only item, or is not the mark. -/
theorem closing_cons {flag : Bool} {flags : List Bool} :
    Closing (flag :: flags) ↔ flag = true ∧ flags = [] ∨ flag = false ∧ Closing flags := by
  cases flag <;> simp

/-- A mark put behind unmarked items closes the stream. -/
theorem Quiet.closing_append {front back : List Bool} (quiet : Quiet front)
    (closing : Closing back) : Closing (front ++ back) := by
  obtain ⟨middle, same, unmarked⟩ := closing
  exact ⟨front ++ middle, by rw [same, List.append_assoc], quiet_append.mpr ⟨quiet, unmarked⟩⟩

/-- A sum over the lanes below a number after one lane has changed. -/
theorem sum_range_update {ι M : Type*} [AddCommMonoid M] (weight : ι → M) (lanes : Nat → ι)
    (changed : ι) {i n : Nat} (inside : i < n) :
    ∑ j ∈ Finset.range n, weight (Function.update lanes i changed j) + weight (lanes i) =
      ∑ j ∈ Finset.range n, weight (lanes j) + weight changed := by
  have member : i ∈ Finset.range n := Finset.mem_range.mpr inside
  rw [← Finset.sum_erase_add _ _ member, ← Finset.sum_erase_add _ _ member,
    Function.update_self]
  have others : ∑ j ∈ (Finset.range n).erase i, weight (Function.update lanes i changed j) =
      ∑ j ∈ (Finset.range n).erase i, weight (lanes j) := by
    apply Finset.sum_congr rfl
    intro j away
    rw [Function.update_of_ne (Finset.ne_of_mem_erase away)]
  rw [others]
  exact add_right_comm _ _ _

end P3arsec.Lib
