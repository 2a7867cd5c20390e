import Mathlib

/-!
# Blocks of a list

A list that grows by blocks can keep for each block the range of its numbers, which start from one.
The range of a block goes on to describe it while the list grows.
-/

namespace P3arsec.Lib

variable {α : Type*}

/-- The numbers of a range. -/
def indices (range : Nat × Nat) : List Nat := List.range' range.1 (range.2 + 1 - range.1)

/-- The element with a number. -/
def entry (list : List α) (e : Nat) : Option α := list[e - 1]?

/-- The elements with the numbers of a range. -/
def slice (list : List α) (range : Nat × Nat) : List α :=
  (list.drop (range.1 - 1)).take (range.2 + 1 - range.1)

/-- A range describes a block of a list. -/
def BlockAt (list : List α) (range : Nat × Nat) (block : List α) : Prop :=
  ∃ before after, list = before ++ block ++ after ∧
    range = (before.length + 1, before.length + block.length)

/-- The indices of a range with both ends. -/
theorem mem_indices {range : Nat × Nat} {e : Nat} :
    e ∈ indices range ↔ range.1 ≤ e ∧ e ≤ range.2 := by
  rw [indices, List.mem_range'_1]
  omega

/-- The block that the list ends with. -/
theorem blockAt_last (list block : List α) :
    BlockAt (list ++ block) (list.length + 1, (list ++ block).length) block :=
  ⟨list, [], (List.append_nil _).symm, by rw [List.length_append]⟩

namespace BlockAt

variable {list block : List α} {range : Nat × Nat} {e : Nat}

/-- The list grows. -/
theorem append (blockAt : BlockAt list range block) (more : List α) :
    BlockAt (list ++ more) range block := by
  obtain ⟨before, after, rfl, same⟩ := blockAt
  exact ⟨before, after ++ more, List.append_assoc .., same⟩

/-- The slice of a range is its block. -/
theorem slice_eq (blockAt : BlockAt list range block) : slice list range = block := by
  obtain ⟨before, after, rfl, rfl⟩ := blockAt
  simp only [slice, Nat.add_sub_cancel]
  rw [List.append_assoc, List.drop_left,
    show before.length + block.length + 1 - (before.length + 1) =
    block.length by omega, List.take_left]

/-- An entry of the list is one of the block. -/
theorem entry_eq (blockAt : BlockAt list range block) (inside : e ∈ indices range) :
    entry list e = block[e - range.1]? := by
  obtain ⟨low, high⟩ := mem_indices.mp inside
  obtain ⟨before, after, rfl, rfl⟩ := blockAt
  simp only at low high ⊢
  rw [entry, List.append_assoc, List.getElem?_append_right (by omega),
    List.getElem?_append_left (by omega)]
  congr 1
  omega

/-- What a number of the range stands for. -/
theorem exists_entry (blockAt : BlockAt list range block) (inside : e ∈ indices range) :
    0 < e ∧ ∃ element ∈ block, entry list e = some element := by
  obtain ⟨low, high⟩ := mem_indices.mp inside
  have same := blockAt.entry_eq inside
  obtain ⟨before, after, rfl, rfl⟩ := blockAt
  simp only at low high same
  have room : e - (before.length + 1) < block.length := by omega
  rw [List.getElem?_eq_getElem room] at same
  exact ⟨by omega, _, List.getElem_mem room, same⟩

/-- Each element of the block has a number in the range. -/
theorem exists_index (blockAt : BlockAt list range block) {element : α}
    (member : element ∈ block) : ∃ e ∈ indices range, entry list e = some element := by
  obtain ⟨position, room, rfl⟩ := List.mem_iff_getElem.mp member
  have bounds : range.1 + position ≤ range.2 := by
    obtain ⟨before, after, -, rfl⟩ := blockAt
    simp only
    omega
  have inside : range.1 + position ∈ indices range := mem_indices.mpr ⟨by omega, bounds⟩
  refine ⟨_, inside, ?_⟩
  rw [blockAt.entry_eq inside, Nat.add_sub_cancel_left, List.getElem?_eq_getElem room]

end BlockAt

end P3arsec.Lib
