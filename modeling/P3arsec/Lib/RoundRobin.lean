import Mathlib

/-!
# Round robin

The positions of a stream are dealt to `n` lanes in turn, and whoever takes them back from the lanes
in the same order gets the stream. A lane holds its positions between the two ends in order, and the
next position of the same lane is `n` positions later.
-/

namespace P3arsec.Lib.RoundRobin

variable {n first lane c k : Nat}

/-- The positions from `c` to `k` of a lane; the first position of the stream is in lane `first`. -/
def slots (n first lane c k : Nat) : List Nat :=
  (List.range' c (k - c)).filter fun p => (first + p) % n = lane

/-- There is no slot between a place and itself. -/
@[simp] theorem slots_self : slots n first lane c c = [] := by
  simp [slots]

/-- A position is dealt to its lane. -/
theorem slots_deal (before : c ≤ k) (here : (first + k) % n = lane) :
    slots n first lane c (k + 1) = slots n first lane c k ++ [k] := by
  have ends : c + (k - c) = k := by omega
  have more : k + 1 - c = (k - c) + 1 := by omega
  rw [slots, slots, more, List.range'_concat, List.filter_append, mul_comm, mul_one, ends]
  simp [here]

/-- The other lanes get nothing. -/
theorem slots_deal_other (before : c ≤ k) (other : (first + k) % n ≠ lane) :
    slots n first lane c (k + 1) = slots n first lane c k := by
  have ends : c + (k - c) = k := by omega
  have more : k + 1 - c = (k - c) + 1 := by omega
  rw [slots, slots, more, List.range'_concat, List.filter_append, mul_comm, mul_one, ends]
  simp [other]

/-- The first position is the head of its lane. -/
theorem slots_take (before : c < k) (here : (first + c) % n = lane) :
    slots n first lane c k = c :: slots n first lane (c + 1) k := by
  have more : k - c = (k - (c + 1)) + 1 := by omega
  rw [slots, slots, more, List.range'_succ, List.filter_cons_of_pos (by simpa using here)]

/-- The other lanes keep their positions. -/
theorem slots_take_other (other : (first + c) % n ≠ lane) :
    slots n first lane c k = slots n first lane (c + 1) k := by
  by_cases before : c < k
  · have more : k - c = (k - (c + 1)) + 1 := by omega
    rw [slots, slots, more, List.range'_succ, List.filter_cons_of_neg (by simpa using other)]
  · have none : k - c = 0 := by omega
    have none' : k - (c + 1) = 0 := by omega
    simp [slots, none, none']

/-- The slots of a lane. -/
theorem mem_slots {p : Nat} :
    p ∈ slots n first lane c k ↔ c ≤ p ∧ p < k ∧ (first + p) % n = lane := by
  simp only [slots, List.mem_filter, List.mem_range'_1, decide_eq_true_eq]
  omega

/-- Two positions of a lane are at least `n` apart. -/
theorem apart {p q : Nat} (before : p < q) (same : (first + p) % n = (first + q) % n) :
    p + n ≤ q := by
  have divides : n ∣ first + q - (first + p) :=
    Nat.dvd_of_mod_eq_zero (Nat.sub_mod_eq_zero_of_mod_eq same.symm)
  have := Nat.le_of_dvd (by omega) divides
  omega

/-- The positions of a lane are in order. -/
theorem slots_ordered : (slots n first lane c k).Pairwise (· < ·) :=
  List.Pairwise.filter _ List.pairwise_lt_range'

/-- One of the last `n` positions is the last one of its lane. -/
theorem slots_last {p : Nat} {old new : List Nat} (split : slots n first lane c k = old ++ p :: new)
    (last : k ≤ p + n) : new = [] := by
  have ordered := @slots_ordered n first lane c k
  rw [split, List.pairwise_append] at ordered
  cases new with
  | nil => rfl
  | cons q new =>
    have before : p < q := (List.pairwise_cons.mp ordered.2.1).1 q (by simp)
    have member := (mem_slots (p := p)).mp (split ▸ by simp : p ∈ slots n first lane c k)
    have member' := (mem_slots (p := q)).mp (split ▸ by simp : q ∈ slots n first lane c k)
    have := apart before (member.2.2.trans member'.2.2.symm)
    omega

/-- The next lane. -/
theorem next_lane (p : Nat) : ((first + p) % n + 1) % n = (first + (p + 1)) % n := by
  rw [Nat.mod_add_mod, Nat.add_assoc]

section Contents

variable {ι : Type*} {holds : ι → Nat → Prop}

/-- An item may be replaced by one that stands for the same position. -/
theorem replace {items items' : List ι} {item next : ι} {positions : List Nat}
    (known : List.Forall₂ holds (items ++ item :: items') positions)
    (stronger : ∀ p, holds item p → holds next p) :
    List.Forall₂ holds (items ++ next :: items') positions := by
  induction items generalizing positions with
  | nil =>
    cases known with
    | cons here rest => exact .cons (stronger _ here) rest
  | cons _ items ih =>
    cases known with
    | cons here rest => exact .cons here (ih rest)

/-- The item behind some others stands for a position with as many before it. -/
theorem split {items items' : List ι} {item : ι} {positions : List Nat}
    (known : List.Forall₂ holds (items ++ item :: items') positions) :
    ∃ old p new, positions = old ++ p :: new ∧ List.Forall₂ holds items old ∧ holds item p ∧
      List.Forall₂ holds items' new := by
  induction items generalizing positions with
  | nil =>
    cases known with
    | cons here rest => exact ⟨[], _, _, rfl, .nil, here, rest⟩
  | cons _ items ih =>
    cases known with
    | cons first rest =>
      obtain ⟨old, p, new, eq, before, here, behind⟩ := ih rest
      exact ⟨_ :: old, p, new, by rw [eq]; rfl, .cons first before, here, behind⟩

/-- Every position has an item. -/
theorem exists_of_mem {items : List ι} {positions : List Nat}
    (known : List.Forall₂ holds items positions) {p : Nat} (member : p ∈ positions) :
    ∃ item ∈ items, holds item p := by
  induction known with
  | nil => cases member
  | @cons item q items positions here _ ih =>
    rcases List.mem_cons.mp member with rfl | member
    · exact ⟨item, List.mem_cons_self, here⟩
    · obtain ⟨item, item_mem, there⟩ := ih member
      exact ⟨item, List.mem_cons_of_mem _ item_mem, there⟩

/-- Items keep what they stand for where their positions keep it. -/
theorem keep {holds' : ι → Nat → Prop} {items : List ι} {positions : List Nat}
    (known : List.Forall₂ holds items positions)
    (same : ∀ p ∈ positions, ∀ item, holds item p → holds' item p) :
    List.Forall₂ holds' items positions := by
  induction known with
  | nil => exact .nil
  | cons here _ ih =>
    exact .cons (same _ List.mem_cons_self _ here)
      (ih fun p member => same p (List.mem_cons_of_mem _ member))

end Contents

end P3arsec.Lib.RoundRobin
