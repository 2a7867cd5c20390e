import Mathlib

/-!
# The payment schedule of a swap

`HJM_Swaption_Blocking` counts time in steps of `dYears / iN`. The time between two payments, the
tenor and the time that is left at maturity are rounded to steps, each on its own. The loop over the
payments goes from one rounded payment time to the next and adds the par amount when it meets the
rounded tenor, which it does only when the rounded tenor is a multiple of the rounded time between
payments. The rounding error of the latter counts once for each payment, so that it must be less
than half a step in all (`schedule_right_iff`). The last payment must also lie before the end of the
vector, which is so when a half step lies between the tenor and the time that is left.
-/

namespace P3arsec.Swaptions

variable {𝕂 : Type}

/-- The arguments of `HJM_Swaption_Blocking` that describe the swaption and its time steps. -/
structure Swaption (𝕂 : Type) where
  /-- The strike. -/
  dStrike : 𝕂
  /-- The compounding convention of the strike; 0 is continuous. -/
  dCompounding : 𝕂
  /-- The time to expiration. -/
  dMaturity : 𝕂
  /-- The tenor of the swap. -/
  dTenor : 𝕂
  /-- The time between two payments. -/
  dPaymentInterval : 𝕂
  /-- The number of time points. -/
  iN : Nat
  /-- The years of all time points. -/
  dYears : 𝕂

section Steps

variable [Field 𝕂] [LinearOrder 𝕂] [FloorRing 𝕂]

/-- The constant `0.5`. -/
def half : 𝕂 := (1 + 1)⁻¹

/-- The conversion to `int`, which cuts the fraction off. -/
def toInt (x : 𝕂) : Int := if 0 ≤ x then ⌊x⌋ else ⌈x⌉

namespace Swaption

variable (swaption : Swaption 𝕂)

/-- The width of a time step. -/
def ddelt : 𝕂 := swaption.dYears / swaption.iN

/-- The number of time steps between two payments. -/
def iFreqRatio : Int := toInt (swaption.dPaymentInterval / swaption.ddelt + half)

/-- The length of the rate path when the swaption is due. -/
def iSwapVectorLength : Int := toInt (swaption.iN - swaption.dMaturity / swaption.ddelt + half)

/-- The number of time steps of the swap. -/
def iSwapTimePoints : Int := toInt (swaption.dTenor / swaption.ddelt + half)

/-- The strike in the continuous convention. -/
def dStrikeCont (log : 𝕂 → 𝕂) : 𝕂 :=
  if swaption.dCompounding = 0 then swaption.dStrike
  else 1 / swaption.dCompounding * log (1 + swaption.dStrike * swaption.dCompounding)

/-- What a payment with the par amount pays. -/
def payment (exp log : 𝕂 → 𝕂) : 𝕂 := exp (swaption.dStrikeCont log * swaption.dPaymentInterval)

end Swaption

end Steps

/-- `pdSwapPayoffs`, with a record of the writes of the loop over the payments. -/
structure Payoffs (𝕂 : Type) where
  /-- The memory of the vector and around it. -/
  entries : Int → 𝕂
  /-- The indices that were written, with the values. -/
  writes : List (Int × 𝕂)

/-- A write of the loop over the payments. -/
def Payoffs.write (payoffs : Payoffs 𝕂) (i : Int) (value : 𝕂) : Payoffs 𝕂 :=
  ⟨Function.update payoffs.entries i value, payoffs.writes ++ [(i, value)]⟩

section Loops

variable [Field 𝕂]

/-- The loop that sets the entries to zero. -/
def zeroed (length : Int) (memory : Int → 𝕂) : Int → 𝕂 :=
  (List.range length.toNat).foldl (fun entries (i : Nat) => Function.update entries (i : Int) 0)
    memory

/-- The loop over the payments, `none` when it takes more than `fuel` rounds. -/
def paymentLoop (payment : 𝕂) (freqRatio timePoints : Int) :
    Nat → Int → Payoffs 𝕂 → Option (Payoffs 𝕂)
  | 0, _, _ => none
  | fuel + 1, i, payoffs =>
    if i ≤ timePoints then
      let payoffs := if i ≠ timePoints then payoffs.write i (payment - 1) else payoffs
      let payoffs := if i = timePoints then payoffs.write i payment else payoffs
      paymentLoop payment freqRatio timePoints fuel (i + freqRatio) payoffs
    else
      some payoffs

end Loops

section Schedule

variable [Field 𝕂] [LinearOrder 𝕂] [FloorRing 𝕂]

/-- The schedule that `HJM_Swaption_Blocking` makes in a vector with any contents. -/
def schedule (exp log : 𝕂 → 𝕂) (swaption : Swaption 𝕂) (memory : Int → 𝕂) (fuel : Nat) :
    Option (Payoffs 𝕂) :=
  paymentLoop (swaption.payment exp log) swaption.iFreqRatio swaption.iSwapTimePoints fuel
    swaption.iFreqRatio ⟨zeroed swaption.iSwapVectorLength memory, []⟩

/-- The schedule is right: it lies in the vector, has one entry for each payment, and the last time
point gets a coupon and the par amount once. -/
structure Right (swaption : Swaption 𝕂) (payment : 𝕂) (payoffs : Payoffs 𝕂) : Prop where
  inside : ∀ write ∈ payoffs.writes, 0 ≤ write.1 ∧ write.1 < swaption.iSwapVectorLength
  payments :
    ({i : Int | (0 ≤ i ∧ i < swaption.iSwapVectorLength) ∧ payoffs.entries i ≠ 0}.ncard : 𝕂) =
      swaption.dTenor / swaption.dPaymentInterval
  terminal : payoffs.writes.filter (fun write => write.1 = swaption.iSwapTimePoints) =
    [(swaption.iSwapTimePoints, (payment - 1) + 1)]

end Schedule

/-- Writes at some time points. -/
def Payoffs.writeAll (value : Int → 𝕂) (places : List Int) (payoffs : Payoffs 𝕂) : Payoffs 𝕂 :=
  places.foldl (fun payoffs i => payoffs.write i (value i)) payoffs

section Writes

variable {value : Int → 𝕂}

/-- The writes of a loop are recorded. -/
theorem Payoffs.writes_writeAll (payoffs : Payoffs 𝕂) (places : List Int) :
    (payoffs.writeAll value places).writes =
      payoffs.writes ++ places.map fun i => (i, value i) := by
  induction places generalizing payoffs with
  | nil => simp [writeAll]
  | cons i places ih =>
    have rest := ih (payoffs.write i (value i))
    simp only [writeAll, List.foldl_cons, List.map_cons] at rest ⊢
    rw [rest]
    simp [write]

/-- The entries behind a loop of writes. -/
theorem Payoffs.entries_writeAll (payoffs : Payoffs 𝕂) (places : List Int) (x : Int) :
    (payoffs.writeAll value places).entries x =
      if x ∈ places then value x else payoffs.entries x := by
  induction places generalizing payoffs with
  | nil => simp [writeAll]
  | cons i places ih =>
    have rest := ih (payoffs.write i (value i))
    simp only [writeAll, List.foldl_cons] at rest ⊢
    rw [rest]
    by_cases later : x ∈ places
    · simp [later]
    · by_cases here : x = i
      · simp [here, write]
      · simp [later, here, write]

end Writes

/-- The time points of `count` payments from `i` on. -/
def places (freqRatio i : Int) (count : Nat) : List Int :=
  (List.range count).map fun k : Nat => i + (k : Int) * freqRatio

/-- The first place and the others. -/
theorem places_succ (freqRatio i : Int) (count : Nat) :
    places freqRatio i (count + 1) = i :: places freqRatio (i + freqRatio) count := by
  rw [places, places, List.range_succ_eq_map, List.map_cons, List.map_map]
  congr 1
  · simp
  · apply List.map_congr_left
    intro k _
    simp only [Function.comp_apply, Nat.cast_succ]
    ring

section Loop

variable [Field 𝕂] {payment : 𝕂} {freqRatio timePoints i : Int} {payoffs : Payoffs 𝕂}

/-- The value that the loop writes at a time point. -/
def valueAt (payment : 𝕂) (timePoints i : Int) : 𝕂 :=
  if i = timePoints then payment else payment - 1

/-- A round of the loop writes at one time point. -/
theorem paymentLoop_round (fuel : Nat) (inside : i ≤ timePoints) :
    paymentLoop payment freqRatio timePoints (fuel + 1) i payoffs =
      paymentLoop payment freqRatio timePoints fuel (i + freqRatio)
        (payoffs.write i (valueAt payment timePoints i)) := by
  rw [paymentLoop, if_pos inside, valueAt]
  by_cases last : i = timePoints
  · simp [last]
  · simp [last]

/-- The loop writes at the time points of the payments and ends. -/
theorem paymentLoop_eq (count : Nat) (past : timePoints < i + count * freqRatio)
    (inside : ∀ k < count, i + k * freqRatio ≤ timePoints) :
    paymentLoop payment freqRatio timePoints (count + 1) i payoffs =
      some (payoffs.writeAll (valueAt payment timePoints) (places freqRatio i count)) := by
  induction count generalizing i payoffs with
  | zero =>
    rw [paymentLoop, if_neg (by simpa using past)]
    rfl
  | succ count ih =>
    have first : i ≤ timePoints := by simpa using inside 0 (by omega)
    rw [paymentLoop_round _ first, ih, places_succ]
    · rfl
    · push_cast at past ⊢
      linarith
    · intro k below
      have here := inside (k + 1) (by omega)
      push_cast at here
      linarith

/-- More fuel does not change what the loop does. -/
theorem paymentLoop_fuel {fuel more : Nat} {result : Payoffs 𝕂}
    (ends : paymentLoop payment freqRatio timePoints fuel i payoffs = some result)
    (le : fuel ≤ more) :
    paymentLoop payment freqRatio timePoints more i payoffs = some result := by
  induction fuel generalizing more i payoffs with
  | zero => simp [paymentLoop] at ends
  | succ fuel ih =>
    obtain ⟨more, rfl⟩ : ∃ n, more = n + 1 := ⟨more - 1, by omega⟩
    rw [paymentLoop] at ends ⊢
    split at ends
    · rename_i inside
      rw [if_pos inside]
      exact ih ends (by omega)
    · rename_i outside
      rw [if_neg outside]
      exact ends

/-- Between payments of at least one step the loop makes a whole number of payments up to the last
time point. -/
theorem paymentLoop_payments (payment : 𝕂) (payoffs : Payoffs 𝕂) (positive : 0 < freqRatio)
    (some_ : freqRatio ≤ timePoints) :
    paymentLoop payment freqRatio timePoints
      ((timePoints / freqRatio).toNat + 1) freqRatio payoffs =
      some (payoffs.writeAll (valueAt payment timePoints)
        (places freqRatio freqRatio (timePoints / freqRatio).toNat)) := by
  have below : (timePoints / freqRatio) * freqRatio ≤ timePoints :=
    Int.ediv_mul_le _ positive.ne'
  have above : timePoints < (timePoints / freqRatio + 1) * freqRatio :=
    Int.lt_ediv_add_one_mul_self _ positive
  have count : ((timePoints / freqRatio).toNat : Int) = timePoints / freqRatio :=
    Int.toNat_of_nonneg (Int.ediv_nonneg (positive.le.trans some_) positive.le)
  apply paymentLoop_eq
  · rw [count]
    linarith
  · intro k less
    have le : (k : Int) + 1 ≤ timePoints / freqRatio := by omega
    calc freqRatio + k * freqRatio = (k + 1) * freqRatio := by ring
      _ ≤ (timePoints / freqRatio) * freqRatio := Int.mul_le_mul_of_nonneg_right le positive.le
      _ ≤ timePoints := below

end Loop

section Places

variable {freqRatio timePoints x : Int} {count : Nat}

/-- The places are the multiples of the ratio. -/
theorem mem_places :
    x ∈ places freqRatio freqRatio count ↔ ∃ k < count, (k + 1 : Int) * freqRatio = x := by
  simp only [places, List.mem_map, List.mem_range]
  apply exists_congr
  intro k
  rw [show freqRatio + k * freqRatio = (k + 1 : Int) * freqRatio by ring]

/-- The places are different. -/
theorem places_nodup (positive : 0 < freqRatio) : (places freqRatio freqRatio count).Nodup := by
  apply List.nodup_range.map
  intro k l same
  have equal : (k : Int) * freqRatio = l * freqRatio := add_left_cancel same
  exact_mod_cast mul_right_cancel₀ positive.ne' equal

/-- The number of places. -/
theorem length_places : (places freqRatio freqRatio count).length = count := by
  simp [places]

/-- The last time point is met when it is a multiple of the time between payments. -/
theorem mem_places_last (positive : 0 < freqRatio) (some_ : freqRatio ≤ timePoints) :
    timePoints ∈ places freqRatio freqRatio (timePoints / freqRatio).toNat ↔
      freqRatio ∣ timePoints := by
  rw [mem_places]
  constructor
  · rintro ⟨k, -, same⟩
    exact Dvd.intro_left _ same
  · rintro ⟨rounds, rfl⟩
    have one : 1 ≤ rounds := by
      by_contra less
      have none : freqRatio * rounds ≤ 0 :=
        mul_nonpos_of_nonneg_of_nonpos positive.le (by omega)
      omega
    rw [Int.mul_ediv_cancel_left _ positive.ne']
    refine ⟨(rounds - 1).toNat, by omega, ?_⟩
    rw [Int.toNat_of_nonneg (by omega)]
    ring

end Places

section Right

variable [Field 𝕂]

/-- The loop sets the entries of the array to zero. -/
theorem zeroed_inside {length i : Int} {memory : Int → 𝕂} (inside : 0 ≤ i ∧ i < length) :
    zeroed length memory i = 0 := by
  have rounds : ∀ count : Nat, i < count →
      (List.range count).foldl (fun entries (i : Nat) => Function.update entries (i : Int) 0)
        memory i = 0 := by
    intro count
    induction count with
    | zero =>
      intro below
      omega
    | succ count ih =>
      intro below
      rw [List.range_succ, List.foldl_append]
      simp only [List.foldl_cons, List.foldl_nil, Function.update_apply]
      split
      · rfl
      · exact ih (by omega)
  exact rounds length.toNat (by omega)

variable [LinearOrder 𝕂] [IsStrictOrderedRing 𝕂] [FloorRing 𝕂]

/-- What is written is not zero. -/
theorem valueAt_ne_zero {payment : 𝕂} (more : 1 < payment) (timePoints i : Int) :
    valueAt payment timePoints i ≠ 0 := by
  rw [valueAt]
  split
  · exact (zero_lt_one.trans more).ne'
  · exact (sub_pos.mpr more).ne'

/-- The payments of a loop that stays in the vector are its entries that are not zero. -/
theorem nonzero_entries {payment : 𝕂} (more : 1 < payment) {length timePoints : Int}
    {memory : Int → 𝕂} {points : List Int} (inside : ∀ i ∈ points, 0 ≤ i ∧ i < length) :
    {i : Int | (0 ≤ i ∧ i < length) ∧ (Payoffs.writeAll (valueAt payment timePoints) points
      ⟨zeroed length memory, []⟩).entries i ≠ 0} = ↑points.toFinset := by
  ext i
  simp only [Set.mem_ofPred_eq, Payoffs.entries_writeAll, List.coe_toFinset]
  constructor
  · rintro ⟨here, value⟩
    by_contra missing
    rw [if_neg missing, zeroed_inside here] at value
    exact value rfl
  · intro point
    rw [if_pos point]
    exact ⟨inside i point, valueAt_ne_zero more timePoints i⟩

/-- The schedule is right when the rounded tenor is as many rounded payment intervals as the tenor
is payment intervals, and lies in the vector. -/
theorem right_iff {swaption : Swaption 𝕂} {payment : 𝕂} {count : Nat} (memory : Int → 𝕂)
    (more : 1 < payment) (positive : 0 < swaption.iFreqRatio)
    (some_ : swaption.iFreqRatio ≤ swaption.iSwapTimePoints)
    (tenor : swaption.dTenor / swaption.dPaymentInterval = count) :
    Right swaption payment (Payoffs.writeAll (valueAt payment swaption.iSwapTimePoints)
      (places swaption.iFreqRatio swaption.iFreqRatio
        (swaption.iSwapTimePoints / swaption.iFreqRatio).toNat)
      ⟨zeroed swaption.iSwapVectorLength memory, []⟩) ↔
      swaption.iSwapTimePoints = count * swaption.iFreqRatio ∧
        swaption.iSwapTimePoints < swaption.iSwapVectorLength := by
  set freqRatio := swaption.iFreqRatio
  set timePoints := swaption.iSwapTimePoints
  set rounds := (timePoints / freqRatio).toNat with rounds_eq
  set points := places freqRatio freqRatio rounds with points_eq
  have writes : (Payoffs.writeAll (valueAt payment timePoints) points
      ⟨zeroed swaption.iSwapVectorLength memory, []⟩).writes =
        points.map fun i => (i, valueAt payment timePoints i) := by
    simp [Payoffs.writes_writeAll]
  constructor
  · intro right
    have inside : ∀ i ∈ points, 0 ≤ i ∧ i < swaption.iSwapVectorLength := by
      intro i point
      apply right.inside (i, valueAt payment timePoints i)
      rw [writes]
      exact List.mem_map_of_mem point
    have last : timePoints ∈ points := by
      have found : (timePoints, (payment - 1) + 1) ∈ (Payoffs.writeAll
          (valueAt payment timePoints) points
          ⟨zeroed swaption.iSwapVectorLength memory, []⟩).writes := by
        apply List.mem_of_mem_filter
        rw [right.terminal]
        exact List.mem_singleton_self _
      rw [writes, List.mem_map] at found
      obtain ⟨i, point, same⟩ := found
      rwa [← (Prod.mk.inj same).1]
    have number : rounds = count := by
      have payments := right.payments
      rw [nonzero_entries more inside, Set.ncard_coe_finset,
        List.toFinset_card_of_nodup (places_nodup positive), length_places, tenor] at payments
      exact_mod_cast payments
    refine ⟨?_, (inside timePoints last).2⟩
    rw [points_eq, mem_places_last positive some_] at last
    have nonneg : 0 ≤ timePoints / freqRatio :=
      Int.ediv_nonneg (positive.le.trans some_) positive.le
    rw [← number, rounds_eq, Int.toNat_of_nonneg nonneg, Int.ediv_mul_cancel last]
  · rintro ⟨whole, below⟩
    have divides : freqRatio ∣ timePoints := Dvd.intro_left _ whole.symm
    have number : rounds = count := by
      rw [rounds_eq, whole, Int.mul_ediv_cancel _ positive.ne', Int.toNat_natCast]
    have last : timePoints ∈ points := (mem_places_last positive some_).mpr divides
    have inside : ∀ i ∈ points, 0 ≤ i ∧ i < swaption.iSwapVectorLength := by
      intro i point
      obtain ⟨k, less, rfl⟩ := mem_places.mp point
      rw [number] at less
      have le : ((k : Int) + 1) * freqRatio ≤ count * freqRatio :=
        Int.mul_le_mul_of_nonneg_right (by omega) positive.le
      refine ⟨by positivity, ?_⟩
      rw [← whole] at le
      omega
    refine ⟨?_, ?_, ?_⟩
    · intro write written
      rw [writes, List.mem_map] at written
      obtain ⟨i, point, rfl⟩ := written
      exact inside i point
    · rw [nonzero_entries more inside, Set.ncard_coe_finset,
        List.toFinset_card_of_nodup (places_nodup positive), length_places, tenor, number]
    · have once : points.filter (fun i => i = timePoints) = [timePoints] := by
        rw [List.filter_eq, List.count_eq_one_of_mem (places_nodup positive) last]
        rfl
      rw [writes, List.filter_map]
      simp only [Function.comp_def]
      rw [once, List.map_singleton, valueAt, if_pos rfl, sub_add_cancel]

end Right

section Rounding

variable [Field 𝕂] [LinearOrder 𝕂] [FloorRing 𝕂]

/-- A number that is not negative is rounded down. -/
theorem toInt_of_nonneg {x : 𝕂} (nonneg : 0 ≤ x) : toInt x = ⌊x⌋ := if_pos nonneg

/-- Two roundings differ when a whole number lies between. -/
theorem floor_lt_floor_iff {x y : 𝕂} : ⌊x⌋ < ⌊y⌋ ↔ ∃ k : Int, x < k ∧ (k : 𝕂) ≤ y := by
  constructor
  · intro less
    exact ⟨⌊y⌋, Int.floor_lt.mp less, Int.floor_le y⟩
  · rintro ⟨k, above, below⟩
    exact (Int.floor_lt.mpr above).trans_le (Int.le_floor.mpr below)

/-- Two halves are one. -/
theorem half_add_half : (half : 𝕂) + half = 1 := by
  rw [half, one_add_one_eq_two]
  norm_num

variable [IsStrictOrderedRing 𝕂]

/-- A half is positive. -/
theorem half_positive : 0 < (half : 𝕂) := inv_pos.mpr (add_pos one_pos one_pos)

/-- The rounding of a multiple is the multiple of the rounding when the rounding errors add up to
less than half. -/
theorem floor_mul_eq_iff {x : 𝕂} {count : Nat} (positive : 1 ≤ count) (nonneg : 0 ≤ x) :
    ⌊count * x + half⌋ = count * ⌊x + half⌋ ↔
      ∃ k : Nat, -half ≤ count * (x - k) ∧ count * (x - k) < half := by
  have one_le : (1 : 𝕂) ≤ count := by exact_mod_cast positive
  have halves : (half : 𝕂) + half = 1 := half_add_half
  have rounded : ∀ k : Int, ⌊count * x + half⌋ = count * k ↔
      -half ≤ count * (x - k) ∧ count * (x - k) < half := by
    intro k
    rw [Int.floor_eq_iff]
    push_cast
    constructor
    · rintro ⟨lower, upper⟩
      constructor <;> linarith
    · rintro ⟨lower, upper⟩
      constructor <;> linarith
  constructor
  · intro same
    have floor_nonneg : 0 ≤ ⌊x + half⌋ :=
      Int.floor_nonneg.mpr (add_nonneg nonneg half_positive.le)
    refine ⟨⌊x + half⌋.toNat, ?_⟩
    have errors := (rounded _).mp same
    rwa [← Int.toNat_of_nonneg floor_nonneg, Int.cast_natCast] at errors
  · rintro ⟨k, lower, upper⟩
    have nearest : ⌊x + half⌋ = k := by
      rw [Int.floor_eq_iff]
      push_cast
      rcases le_total 0 (x - k) with above | below
      · have grows := mul_le_mul_of_nonneg_right one_le above
        constructor <;> linarith
      · have grows := mul_le_mul_of_nonpos_right one_le below
        constructor <;> linarith
    rw [nearest]
    exact (rounded k).mpr ⟨by simpa using lower, by simpa using upper⟩

end Rounding

/-- The times of a swaption with `count` payments. -/
structure Swaption.Payable [Field 𝕂] [LinearOrder 𝕂] (swaption : Swaption 𝕂) (count : Nat) :
    Prop where
  iN_pos : 1 ≤ swaption.iN
  dYears_pos : 0 < swaption.dYears
  dMaturity_pos : 0 < swaption.dMaturity
  dTenor_pos : 0 < swaption.dTenor
  interval_pos : 0 < swaption.dPaymentInterval
  /-- Payments are at least one time step apart. -/
  step : swaption.ddelt ≤ swaption.dPaymentInterval
  /-- The tenor is a multiple of the payment interval. -/
  tenor : swaption.dTenor = count * swaption.dPaymentInterval
  /-- The swap ends within the years. -/
  due : swaption.dMaturity + swaption.dTenor < swaption.dYears

section Payable

variable [Field 𝕂] [LinearOrder 𝕂] {swaption : Swaption 𝕂} {count : Nat}

/-- There is a payment. -/
theorem Swaption.Payable.count_pos (payable : swaption.Payable count) : 1 ≤ count := by
  by_contra none
  have tenor := payable.tenor
  rw [show count = 0 by omega, Nat.cast_zero, zero_mul] at tenor
  exact payable.dTenor_pos.ne' tenor

variable [IsStrictOrderedRing 𝕂]

/-- The step of the time is positive. -/
theorem Swaption.Payable.ddelt_pos (payable : swaption.Payable count) : 0 < swaption.ddelt :=
  div_pos payable.dYears_pos (by exact_mod_cast payable.iN_pos)

/-- There is more than the tenor left at maturity. -/
theorem Swaption.Payable.left (payable : swaption.Payable count) :
    swaption.dTenor / swaption.ddelt < swaption.iN - swaption.dMaturity / swaption.ddelt := by
  have steps : (swaption.iN : 𝕂) = swaption.dYears / swaption.ddelt := by
    have some_ : (swaption.iN : 𝕂) ≠ 0 := by
      have positive := payable.iN_pos
      exact_mod_cast (by omega : swaption.iN ≠ 0)
    have years := payable.dYears_pos.ne'
    rw [Swaption.ddelt]
    field_simp
  rw [steps, ← sub_div]
  apply div_lt_div_of_pos_right _ payable.ddelt_pos
  linarith [payable.due]

variable [FloorRing 𝕂]

/-- The roundings of the times of a swaption. -/
theorem Swaption.Payable.rounded (payable : swaption.Payable count) :
    swaption.iFreqRatio = ⌊swaption.dPaymentInterval / swaption.ddelt + half⌋ ∧
      swaption.iSwapTimePoints =
        ⌊count * (swaption.dPaymentInterval / swaption.ddelt) + half⌋ ∧
      swaption.iSwapVectorLength =
        ⌊swaption.iN - swaption.dMaturity / swaption.ddelt + half⌋ := by
  have interval : 0 < swaption.dPaymentInterval / swaption.ddelt :=
    div_pos payable.interval_pos payable.ddelt_pos
  have tenor : 0 < swaption.dTenor / swaption.ddelt :=
    div_pos payable.dTenor_pos payable.ddelt_pos
  have left := payable.left
  have positive : 0 < (half : 𝕂) := half_positive
  refine ⟨toInt_of_nonneg (by linarith), ?_, toInt_of_nonneg (by linarith)⟩
  rw [← mul_div_assoc, ← payable.tenor]
  exact toInt_of_nonneg (by linarith)

/-- The schedule of a swaption is right when the rounding errors of its payments add up to less than
half a time step, and a half step lies between the tenor and the time that is left at maturity. -/
theorem schedule_right_iff_of {exp log : 𝕂 → 𝕂} (payable : swaption.Payable count)
    (more : 1 < swaption.payment exp log) (memory : Int → 𝕂) :
    (∃ fuel payoffs, schedule exp log swaption memory fuel = some payoffs ∧
        Right swaption (swaption.payment exp log) payoffs) ↔
      (∃ k : Nat, -half ≤ count * (swaption.dPaymentInterval / swaption.ddelt - k) ∧
          count * (swaption.dPaymentInterval / swaption.ddelt - k) < half) ∧
        ∃ k : Int, swaption.dTenor / swaption.ddelt + half < k ∧
          (k : 𝕂) ≤ swaption.iN - swaption.dMaturity / swaption.ddelt + half := by
  obtain ⟨freqRatio, timePoints, length⟩ := payable.rounded
  have one : 1 ≤ swaption.dPaymentInterval / swaption.ddelt :=
    (one_le_div payable.ddelt_pos).mpr payable.step
  have positive : 0 < swaption.iFreqRatio := by
    rw [freqRatio]
    have more : 0 < (half : 𝕂) := half_positive
    apply Int.floor_pos.mpr
    linarith
  have some_ : swaption.iFreqRatio ≤ swaption.iSwapTimePoints := by
    rw [freqRatio, timePoints]
    apply Int.floor_le_floor
    have counts : (1 : 𝕂) ≤ count := by exact_mod_cast payable.count_pos
    linarith [le_mul_of_one_le_left (zero_le_one.trans one) counts]
  have tenor : swaption.dTenor / swaption.dPaymentInterval = count := by
    rw [payable.tenor, mul_div_cancel_right₀ _ payable.interval_pos.ne']
  have loops := paymentLoop_payments (swaption.payment exp log)
    ⟨zeroed swaption.iSwapVectorLength memory, []⟩ positive some_
  have ends : (∃ fuel payoffs, schedule exp log swaption memory fuel = some payoffs ∧
      Right swaption (swaption.payment exp log) payoffs) ↔
      swaption.iSwapTimePoints = count * swaption.iFreqRatio ∧
        swaption.iSwapTimePoints < swaption.iSwapVectorLength := by
    rw [← right_iff memory more positive some_ tenor]
    constructor
    · rintro ⟨fuel, payoffs, result, right⟩
      have same := (paymentLoop_fuel result (le_max_left fuel _)).symm.trans
        (paymentLoop_fuel loops (le_max_right fuel _))
      rwa [Option.some.inj same] at right
    · intro right
      exact ⟨_, _, loops, right⟩
  rw [ends, ← floor_mul_eq_iff payable.count_pos (zero_le_one.trans one), ← floor_lt_floor_iff,
    freqRatio, length, timePoints, payable.tenor, mul_div_assoc]

end Payable

/-- A payment with the par amount is more than the par amount where the strike can be converted. -/
theorem one_lt_payment {swaption : Swaption ℝ} (strike : 0 < swaption.dStrike)
    (interval : 0 < swaption.dPaymentInterval)
    (convertible : 0 < 1 + swaption.dStrike * swaption.dCompounding) :
    1 < swaption.payment Real.exp Real.log := by
  have positive : 0 < swaption.dStrikeCont Real.log := by
    rw [Swaption.dStrikeCont]
    split
    · exact strike
    · rename_i discrete
      rcases lt_or_gt_of_ne discrete with negative | above
      · have less : Real.log (1 + swaption.dStrike * swaption.dCompounding) < 0 :=
          Real.log_neg convertible (by linarith [mul_neg_of_pos_of_neg strike negative])
        exact mul_pos_of_neg_of_neg (one_div_neg.mpr negative) less
      · have more : 0 < Real.log (1 + swaption.dStrike * swaption.dCompounding) :=
          Real.log_pos (by linarith [mul_pos strike above])
        exact mul_pos (one_div_pos.mpr above) more
  exact Real.one_lt_exp_iff.mpr (mul_pos positive interval)

/-- The loop over the payments ends with a right schedule when the rounding errors of the payments
add up to less than half a time step, and a half step lies between the tenor and the time that is
left at maturity. -/
theorem schedule_right_iff (swaption : Swaption ℝ) (count : Nat) (memory : Int → ℝ)
    (payable : swaption.Payable count) (strike : 0 < swaption.dStrike)
    (convertible : 0 < 1 + swaption.dStrike * swaption.dCompounding) :
    (∃ fuel payoffs, schedule Real.exp Real.log swaption memory fuel = some payoffs ∧
        Right swaption (swaption.payment Real.exp Real.log) payoffs) ↔
      (∃ k : Nat, -half ≤ count * (swaption.dPaymentInterval / swaption.ddelt - k) ∧
          count * (swaption.dPaymentInterval / swaption.ddelt - k) < half) ∧
        ∃ k : Int, swaption.dTenor / swaption.ddelt + half < k ∧
          (k : ℝ) ≤ swaption.iN - swaption.dMaturity / swaption.ddelt + half :=
  schedule_right_iff_of payable (one_lt_payment strike payable.interval_pos convertible) memory

/-- The swaptions of `main`, which chooses the years at random. -/
def ofYears [Field 𝕂] (dYears : 𝕂) : Swaption 𝕂 where
  dStrike := 1
  dCompounding := 0
  dMaturity := 1
  dTenor := 1 + 1
  dPaymentInterval := 1
  iN := 11
  dYears := dYears

/-- The swaptions of the sample are payable. -/
theorem ofYears_payable {dYears : ℝ} (least : 5 ≤ dYears) (most : dYears ≤ 11) :
    (ofYears dYears).Payable 2 := by
  refine ⟨by simp [ofYears], ?_, ?_, ?_, ?_, ?_, ?_, ?_⟩
  · exact (by norm_num : (0 : ℝ) < 5).trans_le least
  · exact one_pos
  · exact add_pos one_pos one_pos
  · exact one_pos
  · simp only [Swaption.ddelt, ofYears, Nat.cast_ofNat]
    linarith
  · simp only [ofYears, Nat.cast_ofNat]
    norm_num
  · simp only [ofYears]
    linarith

/-- A swaption of five years. -/
theorem schedule_right_iff_five :
    (∃ fuel payoffs, schedule Real.exp Real.log (ofYears 5) (fun _ => 0) fuel = some payoffs ∧
        Right (ofYears 5) ((ofYears 5).payment Real.exp Real.log) payoffs) ↔
      (∃ k : Nat, -half ≤ ((2 : Nat) : ℝ) *
            ((ofYears 5).dPaymentInterval / (ofYears (5 : ℝ)).ddelt - k) ∧
          ((2 : Nat) : ℝ) * ((ofYears 5).dPaymentInterval / (ofYears 5).ddelt - k) < half) ∧
        ∃ k : Int, (ofYears 5).dTenor / (ofYears 5).ddelt + half < (k : ℝ) ∧
          (k : ℝ) ≤ (ofYears (5 : ℝ)).iN - (ofYears 5).dMaturity / (ofYears 5).ddelt + half :=
  schedule_right_iff (ofYears 5) 2 (fun _ => 0) (ofYears_payable le_rfl (by norm_num))
    (by simp [ofYears]) (by simp [ofYears])

/-- With 6.75 years, which `main` can choose, there are two payments of 1.63 time steps each. The
payment interval is rounded to two steps and the tenor to three, so that the loop pays after two
steps and never the par amount. -/
theorem schedule_wrong :
    (ofYears (27 / 4 : ℝ)).Payable 2 ∧ 0 < (ofYears (27 / 4 : ℝ)).dStrike ∧
      ¬ ∃ fuel payoffs,
        schedule Real.exp Real.log (ofYears (27 / 4)) (fun _ => 0) fuel = some payoffs ∧
        Right (ofYears (27 / 4)) ((ofYears (27 / 4)).payment Real.exp Real.log) payoffs := by
  have payable : (ofYears (27 / 4 : ℝ)).Payable 2 :=
    ofYears_payable (by norm_num) (by norm_num)
  refine ⟨payable, one_pos, ?_⟩
  have more : 1 < (ofYears (27 / 4)).payment Real.exp Real.log :=
    one_lt_payment one_pos one_pos (by simp [ofYears])
  rw [schedule_right_iff_of payable more]
  rintro ⟨⟨k, lower, upper⟩, -⟩
  have halves : (half : ℝ) + half = 1 := half_add_half
  have steps : (ofYears (27 / 4 : ℝ)).dPaymentInterval / (ofYears (27 / 4)).ddelt = 44 / 27 := by
    simp only [Swaption.ddelt, ofYears]
    norm_num
  rw [steps] at lower upper
  push_cast at lower upper
  rcases Nat.lt_or_ge k 2 with less | more
  · have le : (k : ℝ) ≤ 1 := by exact_mod_cast Nat.le_of_lt_succ less
    linarith
  · have ge : (2 : ℝ) ≤ k := by exact_mod_cast more
    linarith

end P3arsec.Swaptions
