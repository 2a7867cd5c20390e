import Mathlib

/-!
# Heaps and ordered maps

The laws that a program relies on when it uses a priority queue or a search tree whose code
is not at hand. A heap is seen through the multiset of its elements, a search tree through
the lookup of its keys. Lists give an instance of either.
-/

namespace P3arsec.Lib

variable {α κ ν ρ : Type} [LinearOrder ρ] [LinearOrder κ]

/-- A priority queue that hands out an element with the least rank. -/
structure MinHeap (α Q : Type) {ρ : Type} [LinearOrder ρ] (rank : α → ρ) where
  /-- A queue without elements. -/
  create : Q
  /-- Put an element into the queue. -/
  insert : α → Q → Q
  /-- The least element. -/
  findMin : Q → Option α
  /-- Take the least element out. -/
  deleteMin : Q → Q
  /-- Whether the queue has no element. -/
  isEmpty : Q → Bool
  /-- The elements of a queue. -/
  content : Q → Multiset α
  /-- A new queue has no element. -/
  content_create : content create = 0
  /-- Insertion adds the element. -/
  content_insert : ∀ element queue, content (insert element queue) = element ::ₘ content queue
  /-- The test for emptiness looks at the elements. -/
  isEmpty_iff : ∀ queue, isEmpty queue = true ↔ content queue = 0
  /-- A queue with elements has a least one, and taking it out leaves the others. -/
  findMin_spec : ∀ queue, content queue ≠ 0 → ∃ element, findMin queue = some element ∧
    content queue = element ::ₘ content (deleteMin queue) ∧
    ∀ other ∈ content queue, rank element ≤ rank other

/-- A search tree that finds its entry of least key. -/
structure OrderedMap (κ ν T : Type) [LinearOrder κ] where
  /-- The tree without entries. -/
  makeEmpty : T
  /-- The value of a key. -/
  find : κ → T → Option ν
  /-- Put an entry into the tree. -/
  insert : κ → ν → T → T
  /-- Change the value of an entry in place. -/
  update : κ → ν → T → T
  /-- Take an entry out. -/
  delete : κ → T → T
  /-- The least key. -/
  findMin : T → Option κ
  /-- The empty tree finds nothing. -/
  find_makeEmpty : ∀ key, find key makeEmpty = none
  /-- A new entry is found under its key. -/
  find_insert : ∀ key value tree other, find key tree = none →
    find other (insert key value tree) = if other = key then some value else find other tree
  /-- A changed entry is found under its key. -/
  find_update : ∀ key value tree other, find key tree ≠ none →
    find other (update key value tree) = if other = key then some value else find other tree
  /-- A deleted entry is not found any more. -/
  find_delete : ∀ key tree other,
    find other (delete key tree) = if other = key then none else find other tree
  /-- A tree without a least key has no entry. -/
  findMin_none : ∀ tree, findMin tree = none → ∀ key, find key tree = none
  /-- The least key has an entry and is not above another key that has one. -/
  findMin_some : ∀ tree key, findMin tree = some key →
    find key tree ≠ none ∧ ∀ other, find other tree ≠ none → key ≤ other

/-- A change in place moves no least key. -/
theorem OrderedMap.findMin_update {T : Type} (map : OrderedMap κ ν T) {key : κ} {value : ν}
    {tree : T} (present : map.find key tree ≠ none) :
    map.findMin (map.update key value tree) = map.findMin tree := by
  have same : ∀ other, map.find other (map.update key value tree) ≠ none ↔
      map.find other tree ≠ none := by
    intro other
    rw [map.find_update key value tree other present]
    by_cases here : other = key
    · simp [here, present]
    · simp [here]
  cases after : map.findMin (map.update key value tree) with
  | none => exact absurd (map.findMin_none _ after key) ((same key).mpr present)
  | some low =>
    cases earlier : map.findMin tree with
    | none => exact absurd (map.findMin_none tree earlier key) present
    | some low' =>
      obtain ⟨found, least⟩ := map.findMin_some _ low after
      obtain ⟨found', least'⟩ := map.findMin_some tree low' earlier
      rw [le_antisymm (least low' ((same low').mpr found')) (least' low ((same low).mp found))]

/-- Lists as priority queues. -/
def MinHeap.list [DecidableEq α] (rank : α → ρ) : MinHeap α (List α) rank where
  create := []
  insert := List.cons
  findMin queue := queue.argmin rank
  deleteMin queue := match queue.argmin rank with
    | none => queue
    | some element => queue.erase element
  isEmpty := List.isEmpty
  content queue := queue
  content_create := rfl
  content_insert _ _ := rfl
  isEmpty_iff queue := by simp
  findMin_spec queue inhabited := by
    cases least : queue.argmin rank with
    | none =>
      rw [List.argmin_eq_none] at least
      rw [least] at inhabited
      exact absurd rfl inhabited
    | some element =>
      have member := List.argmin_mem least
      refine ⟨element, rfl, ?_, fun other inside => List.le_of_mem_argmin inside least⟩
      rw [Multiset.cons_coe]
      exact Multiset.coe_eq_coe.mpr (List.perm_cons_erase member)

/-- Association lists as search trees. -/
def OrderedMap.list : OrderedMap κ ν (List (κ × ν)) where
  makeEmpty := []
  find key tree := (tree.find? fun entry => entry.1 = key).map Prod.snd
  insert key value tree := (key, value) :: tree
  update key value tree := (key, value) :: tree
  delete key tree := tree.filter fun entry => entry.1 ≠ key
  findMin tree := (tree.map Prod.fst).argmin id
  find_makeEmpty _ := rfl
  find_insert key value tree other _ := by
    by_cases same : other = key
    · simp [same]
    · simp [same, Ne.symm same]
  find_update key value tree other _ := by
    by_cases same : other = key
    · simp [same]
    · simp [same, Ne.symm same]
  find_delete key tree other := by
    by_cases same : other = key
    · subst same
      simp
    · rw [if_neg same, List.find?_filter]
      congr 2
      funext entry
      by_cases here : entry.1 = other
      · simp [here, same]
      · simp [here]
  findMin_none tree least key := by
    rw [List.argmin_eq_none, List.map_eq_nil_iff] at least
    rw [least]
    rfl
  findMin_some tree key least := by
    have present : ∀ other, (tree.find? fun entry => entry.1 = other).map Prod.snd ≠ none ↔
        other ∈ tree.map Prod.fst := by
      intro other
      simp
    refine ⟨(present key).mpr (List.argmin_mem least), fun other found => ?_⟩
    exact List.le_of_mem_argmin ((present other).mp found) least

end P3arsec.Lib
