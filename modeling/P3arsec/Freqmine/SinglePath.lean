import Mathlib

/-!
# The counts of a single path

When a conditional tree is a single path of `n` items, every set of its items is frequent, and
`FP_growth` and `FP_growth_first` add the number of sets of each size to `ITlen`. The binomial
coefficients are computed one from the other by a product and a division in `int`. The divisions are
exact, but a product is up to `n` times a coefficient, so it leaves the range of `int` before the
coefficients do.
-/

namespace P3arsec.Freqmine

/-- The range of `int`. -/
def Int32 (value : Int) : Prop := -2 ^ 31 ≤ value ∧ value < 2 ^ 31

instance (value : Int) : Decidable (Int32 value) := inferInstanceAs (Decidable (_ ∧ _))

/-- The value of an operation on `int`, none when it is out of range. -/
def int32 (value : Int) : Option Int := if Int32 value then some value else none

/-- The variables `temp` and `ITlen`. -/
structure Lengths where
  /-- `temp`. -/
  temp : Int
  /-- `ITlen`: the number of sets of each size, less one. -/
  ITlen : Nat → Int

/-- The body of the loop over the sizes, in which `i2` is `n` at first and falls by one in each
iteration. -/
def countSize (top n : Nat) (lengths : Lengths) (i1 : Nat) : Option Lengths := do
  let i2 := n + 1 - i1
  let product ← int32 (lengths.temp * i2)
  let temp := product.tdiv i1
  let sum ← int32 (lengths.ITlen (top + i1 - 1) + temp)
  some ⟨temp, Function.update lengths.ITlen (top + i1 - 1) sum⟩

/-- The loop of `FP_growth` and `FP_growth_first` for a single path of `n` items, where `top` is the
number of items of the prefix. -/
def countPath (top n : Nat) (ITlen : Nat → Int) : Option (Nat → Int) :=
  ((List.range' 1 n).foldlM (countSize top n) ⟨1, ITlen⟩).map Lengths.ITlen

/-- The number of sets of each size up to `i` items is added. -/
def addSets (top n i : Nat) (ITlen : Nat → Int) : Nat → Int := fun entry =>
  if top ≤ entry ∧ entry < top + i then ITlen entry + n.choose (entry + 1 - top) else ITlen entry

section Loop

variable {top n i : Nat} {ITlen : Nat → Int}

/-- A value of `int` is kept. -/
theorem int32_eq_some {value result : Int} : int32 value = some result ↔
    Int32 value ∧ value = result := by
  unfold int32
  split
  case isTrue fits => simp only [fits, Option.some.injEq, true_and]
  case isFalse out => simp only [out, reduceCtorEq, false_and]

/-- No sets change nothing. -/
@[simp] theorem addSets_zero : addSets top n 0 ITlen = ITlen := by
  funext entry
  unfold addSets
  exact if_neg (by omega)

/-- The entry for one more item is still to be counted. -/
theorem addSets_next : addSets top n i ITlen (top + (i + 1) - 1) = ITlen (top + (i + 1) - 1) := by
  unfold addSets
  exact if_neg (by omega)

/-- The sets of one more item are counted. -/
theorem addSets_succ : Function.update (addSets top n i ITlen) (top + (i + 1) - 1)
    (ITlen (top + (i + 1) - 1) + n.choose (i + 1)) = addSets top n (i + 1) ITlen := by
  funext entry
  by_cases here : entry = top + (i + 1) - 1
  · have size : entry + 1 - top = i + 1 := by omega
    have inside : top ≤ entry ∧ entry < top + (i + 1) := by omega
    rw [← here, Function.update_self]
    unfold addSets
    rw [if_pos inside, size]
  · rw [Function.update_of_ne here]
    unfold addSets
    refine if_congr ?_ rfl rfl
    omega

/-- The product is a multiple of the next coefficient. -/
theorem choose_mul (below : i < n) :
    (n.choose i : Int) * ((n + 1 - (i + 1) : Nat) : Int) = n.choose (i + 1) * (i + 1 : Nat) := by
  have step := Nat.choose_succ_right_eq n i
  have last : n + 1 - (i + 1) = n - i := by omega
  rw [last]
  exact_mod_cast step.symm

/-- An iteration gives the next coefficient exactly when the product and the sum are in range. -/
theorem countSize_eq_some (below : i < n) {lengths : Lengths} :
    countSize top n ⟨n.choose i, addSets top n i ITlen⟩ (i + 1) = some lengths ↔
      Int32 (n.choose (i + 1) * (i + 1 : Nat)) ∧
      Int32 (ITlen (top + (i + 1) - 1) + n.choose (i + 1)) ∧
      lengths = ⟨n.choose (i + 1), addSets top n (i + 1) ITlen⟩ := by
  have positive : ((i + 1 : Nat) : Int) ≠ 0 := by omega
  have divides : ((n.choose (i + 1) : Int) * (i + 1 : Nat)).tdiv (i + 1 : Nat) =
      n.choose (i + 1) := Int.mul_tdiv_cancel _ positive
  unfold countSize
  dsimp only
  rw [choose_mul below, addSets_next]
  constructor
  · intro runs
    obtain ⟨product, multiplied, runs⟩ := Option.bind_eq_some_iff.mp runs
    obtain ⟨first, rfl⟩ := int32_eq_some.mp multiplied
    rw [divides] at runs
    obtain ⟨sum, added, runs⟩ := Option.bind_eq_some_iff.mp runs
    obtain ⟨second, rfl⟩ := int32_eq_some.mp added
    refine ⟨first, second, ?_⟩
    rw [← Option.some.inj runs, addSets_succ]
  · rintro ⟨first, second, rfl⟩
    have multiplied := int32_eq_some.mpr ⟨first, rfl⟩
    have added := int32_eq_some.mpr ⟨second, rfl⟩
    rw [multiplied, Option.bind_eq_bind, Option.bind_some, divides, added, Option.bind_some,
      addSets_succ]

/-- After `i` iterations `temp` is the number of sets of `i` items, and the sets of up to `i` items
have been counted, exactly when all products and sums were in range. -/
theorem foldlM_countSize (within : i ≤ n) {lengths : Lengths} :
    (List.range' 1 i).foldlM (countSize top n) ⟨1, ITlen⟩ = some lengths ↔
      (∀ j, 1 ≤ j → j ≤ i → Int32 (n.choose j * (j : Int)) ∧
        Int32 (ITlen (top + j - 1) + n.choose j)) ∧
      lengths = ⟨n.choose i, addSets top n i ITlen⟩ := by
  induction i generalizing lengths with
  | zero =>
    rw [List.range'_zero, List.foldlM_nil, Nat.choose_zero_right, addSets_zero]
    constructor
    · intro same
      exact ⟨fun j first none => by omega, (Option.some.inj same).symm⟩
    · rintro ⟨-, rfl⟩
      rfl
  | succ i ih =>
    have below : i < n := by omega
    have last : List.range' 1 (i + 1) = List.range' 1 i ++ [i + 1] := by
      rw [List.range'_1_concat, Nat.add_comm 1 i]
    rw [last, List.foldlM_append]
    constructor
    · intro runs
      obtain ⟨middle, before, runs⟩ := Option.bind_eq_some_iff.mp runs
      obtain ⟨fit, rfl⟩ := (ih (by omega)).mp before
      rw [List.foldlM_cons] at runs
      obtain ⟨now, counted, same⟩ := Option.bind_eq_some_iff.mp runs
      obtain ⟨first, second, rfl⟩ := (countSize_eq_some below).mp counted
      refine ⟨fun j lower upper => ?_, (Option.some.inj same).symm⟩
      by_cases here : j = i + 1
      · subst here
        exact ⟨first, second⟩
      · exact fit j lower (by omega)
    · rintro ⟨fit, rfl⟩
      have before := (ih (by omega)).mpr ⟨fun j lower upper => fit j lower (by omega), rfl⟩
      obtain ⟨first, second⟩ := fit (i + 1) (by omega) le_rfl
      have now := (countSize_eq_some below).mpr ⟨first, second, rfl⟩
      rw [before, Option.bind_eq_bind, Option.bind_some, List.foldlM_cons, now]
      rfl

/-- The loop counts the sets exactly when all products and sums are in range. -/
theorem countPath_eq_some : countPath top n ITlen = some (addSets top n n ITlen) ↔
    ∀ i, 1 ≤ i → i ≤ n → Int32 (n.choose i * (i : Int)) ∧
      Int32 (ITlen (top + i - 1) + n.choose i) := by
  unfold countPath
  constructor
  · intro counts
    obtain ⟨lengths, runs, -⟩ := Option.map_eq_some_iff.mp counts
    exact ((foldlM_countSize le_rfl).mp runs).1
  · intro fit
    have runs := (foldlM_countSize le_rfl).mpr ⟨fit, rfl⟩
    rw [runs]
    rfl

end Loop

section Range

variable {n i : Nat}

/-- The products for up to 29 items are in range. -/
theorem choose_mul_lt (few : n ≤ 29) (positive : 1 ≤ i) (within : i ≤ n) :
    n.choose i * i < 2 ^ 31 := by
  obtain ⟨m, rfl⟩ : ∃ m, n = m + 1 := ⟨n - 1, by omega⟩
  obtain ⟨k, rfl⟩ : ∃ k, i = k + 1 := ⟨i - 1, by omega⟩
  have row : m.choose k ≤ (28 : Nat).choose k := Nat.choose_le_choose k (by omega)
  have middle : (28 : Nat).choose k ≤ (28 : Nat).choose 14 := Nat.choose_le_middle k 28
  calc (m + 1).choose (k + 1) * (k + 1) = (m + 1) * m.choose k :=
        (Nat.add_one_mul_choose_eq m k).symm
    _ ≤ 29 * (28 : Nat).choose 14 := Nat.mul_le_mul (by omega) (row.trans middle)
    _ < 2 ^ 31 := by decide

/-- A product for 30 to 33 items is out of range. -/
theorem le_choose_mul (lower : 30 ≤ n) (upper : n ≤ 33) :
    2 ^ 31 ≤ n.choose ((n + 1) / 2) * ((n + 1) / 2) := by
  interval_cases n <;> decide

/-- Coefficients of more than 33 items are out of range. -/
theorem le_choose (many : 34 ≤ n) : 2 ^ 31 ≤ n.choose 17 := by
  have row : (34 : Nat).choose 17 ≤ n.choose 17 := Nat.choose_le_choose 17 many
  exact le_trans (by decide) row

/-- Coefficients of up to 33 items are in range. -/
theorem choose_lt (few : n ≤ 33) : n.choose i < 2 ^ 31 := by
  have row : n.choose i ≤ (33 : Nat).choose i := Nat.choose_le_choose i few
  have middle : (33 : Nat).choose i ≤ (33 : Nat).choose 16 := Nat.choose_le_middle i 33
  have bound : (33 : Nat).choose 16 < 2 ^ 31 := by decide
  omega

end Range

/-- The number of sets of each size is added, whenever it is in the range of `int`, exactly for
paths of up to 29 items whose sums are in range, and for paths that have a number out of range. -/
theorem countPath_counts_iff (top n : Nat) (ITlen : Nat → Int) :
    ((∀ i, 1 ≤ i → i ≤ n → Int32 (n.choose i)) →
        countPath top n ITlen = some (addSets top n n ITlen)) ↔
      34 ≤ n ∨ n ≤ 29 ∧ ∀ i, 1 ≤ i → i ≤ n → Int32 (ITlen (top + i - 1) + n.choose i) := by
  rw [countPath_eq_some]
  constructor
  · intro counts
    by_cases many : 34 ≤ n
    · exact .inl many
    · right
      have coefficients : ∀ i, 1 ≤ i → i ≤ n → Int32 (n.choose i) := by
        intro i _ _
        have bound : n.choose i < 2 ^ 31 := choose_lt (by omega)
        unfold Int32
        omega
      have fit := counts coefficients
      refine ⟨?_, fun i lower upper => (fit i lower upper).2⟩
      by_contra more
      have out := le_choose_mul (n := n) (by omega) (by omega)
      have inside := (fit ((n + 1) / 2) (by omega) (by omega)).1.2
      have same : ((n.choose ((n + 1) / 2) : Int) * (((n + 1) / 2 : Nat) : Int)) =
          ((n.choose ((n + 1) / 2) * ((n + 1) / 2) : Nat) : Int) := (Nat.cast_mul _ _).symm
      rw [same] at inside
      omega
  · rintro (many | ⟨few, sums⟩) coefficients
    · have out := le_choose many
      have inside := (coefficients 17 (by omega) (by omega)).2
      omega
    · intro i lower upper
      refine ⟨?_, sums i lower upper⟩
      have bound := choose_mul_lt few lower upper
      have same : (n.choose i : Int) * (i : Int) = ((n.choose i * i : Nat) : Int) :=
        (Nat.cast_mul _ _).symm
      unfold Int32
      rw [same]
      omega

/-- The coefficients of a path of 30 items are in range, but a product is not. -/
theorem countPath_counts_fails : (∀ i, 1 ≤ i → i ≤ 30 → Int32 ((30 : Nat).choose i)) ∧
    countPath 1 30 (fun _ => 0) = none := by
  refine ⟨?_, ?_⟩
  · intro i _ _
    have bound : (30 : Nat).choose i < 2 ^ 31 := choose_lt (by decide)
    unfold Int32
    omega
  · decide +kernel

end P3arsec.Freqmine
