import P3arsec.Swaptions.Schedule

/-!
# The estimator of the price

The simulation makes the payoffs in blocks of `BLOCKSIZE` trials until there are at least `lTrials`
of them, and adds up all payoffs of the blocks and their squares. The price and its standard error
divide these sums by `lTrials`. When `BLOCKSIZE` does not divide `lTrials` there are more payoffs
than that, so that neither is the mean or the variance of the payoffs (`simulate_estimates_iff`).
-/

namespace P3arsec.Swaptions

variable {𝕂 σ : Type}

/-- The routines that fill one block. The first component is what they return. -/
structure Routines (𝕂 σ : Type) where
  /-- `HJM_SimPath_Forward_Blocking`: `ppdHJMPath` and the next seed. -/
  simPath : σ → Int × (Nat → Nat → 𝕂) × σ
  /-- `Discount_Factors_Blocking` for a number of time points, years and a rate path. -/
  discountFactors : Int → 𝕂 → (Nat → 𝕂) → Int × (Nat → 𝕂)

/-- The routines return success. -/
structure Routines.Succeed (routines : Routines 𝕂 σ) : Prop where
  simPath : ∀ seed, (routines.simPath seed).1 = 1
  discountFactors : ∀ count years ratePath, (routines.discountFactors count years ratePath).1 = 1

/-- What `HJM_Swaption_Blocking` has computed before the simulation. -/
structure Plan (𝕂 : Type) where
  /-- `iN`. -/
  iN : Int
  /-- `dYears`. -/
  dYears : 𝕂
  /-- `iSwapVectorLength`. -/
  iSwapVectorLength : Int
  /-- `iSwapStartTimeIndex`. -/
  iSwapStartTimeIndex : Nat
  /-- `dSwapVectorYears`. -/
  dSwapVectorYears : 𝕂
  /-- `pdSwapPayoffs`. -/
  pdSwapPayoffs : Nat → 𝕂

/-- The accumulators of the simulation, with a record of the payoffs. -/
structure Sums (𝕂 σ : Type) where
  /-- `dSumSimSwaptionPrice`. -/
  price : 𝕂
  /-- `dSumSquareSimSwaptionPrice`. -/
  square : 𝕂
  /-- `iRndSeed`. -/
  seed : σ
  /-- The payoffs that were accumulated. -/
  payoffs : List 𝕂

/-- The results. -/
structure Results (𝕂 : Type) where
  /-- `dSimSwaptionMeanPrice`. -/
  meanPrice : 𝕂
  /-- The value under the first root of the standard error. -/
  underRoot : 𝕂
  /-- The value under the second root of the standard error. -/
  underDivisor : 𝕂
  /-- `dSimSwaptionStdError`. -/
  stdError : 𝕂

section Simulation

variable [Field 𝕂] [LinearOrder 𝕂]

/-- The vector that has `entry i b` at the place of time point `i` and trial `b` of the block. -/
def blocked (blockSize : Nat) (entry : Nat → Nat → 𝕂) (j : Nat) : 𝕂 :=
  entry (j / blockSize) (j % blockSize)

/-- `dDiscSwaptionPayoff` of trial `b`. -/
def discSwaptionPayoff (plan : Plan 𝕂) (blockSize : Nat)
    (swapDiscountFactors payoffDiscountFactors : Nat → 𝕂) (b : Nat) : 𝕂 :=
  let fixedLegValue := (List.range plan.iSwapVectorLength.toNat).foldl
    (fun value i => value + plan.pdSwapPayoffs i * swapDiscountFactors (i * blockSize + b)) 0
  let swaptionPayoff := max (fixedLegValue - 1) 0
  swaptionPayoff * payoffDiscountFactors (plan.iSwapStartTimeIndex * blockSize + b)

/-- A payoff is added to the accumulators. -/
def Sums.accumulate (sums : Sums 𝕂 σ) (payoff : 𝕂) : Sums 𝕂 σ :=
  { sums with
    price := sums.price + payoff
    square := sums.square + payoff * payoff
    payoffs := sums.payoffs ++ [payoff] }

/-- The simulation of a block, or the code of the routine that has failed. -/
def simBlock (routines : Routines 𝕂 σ) (plan : Plan 𝕂) (blockSize : Nat) (sums : Sums 𝕂 σ) :
    Except Int (Sums 𝕂 σ) :=
  let path := routines.simPath sums.seed
  if path.1 ≠ 1 then .error path.1
  else
    let payoffFactors := routines.discountFactors plan.iN plan.dYears
      (blocked blockSize fun i b => path.2.1 i b)
    if payoffFactors.1 ≠ 1 then .error payoffFactors.1
    else
      let swapFactors := routines.discountFactors plan.iSwapVectorLength plan.dSwapVectorYears
        (blocked blockSize fun i b => path.2.1 plan.iSwapStartTimeIndex (i * blockSize + b))
      if swapFactors.1 ≠ 1 then .error swapFactors.1
      else
        .ok ((List.range blockSize).foldl (fun sums b =>
          sums.accumulate (discSwaptionPayoff plan blockSize swapFactors.2 payoffFactors.2 b))
          { sums with seed := path.2.2 })

/-- The loop over the blocks, `none` when it takes more than `fuel` rounds. -/
def simLoop (routines : Routines 𝕂 σ) (plan : Plan 𝕂) (blockSize lTrials : Nat) :
    Nat → Nat → Sums 𝕂 σ → Option (Except Int (Sums 𝕂 σ))
  | 0, _, _ => none
  | fuel + 1, l, sums =>
    if (l : Int) ≤ lTrials - 1 then
      match simBlock routines plan blockSize sums with
      | .error code => some (.error code)
      | .ok sums => simLoop routines plan blockSize lTrials fuel (l + blockSize) sums
    else
      some (.ok sums)

/-- The results of the simulation. -/
def Sums.results (sqrt : 𝕂 → 𝕂) (lTrials : Nat) (sums : Sums 𝕂 σ) : Results 𝕂 :=
  let meanPrice := sums.price / lTrials
  let underRoot := (sums.square - sums.price * sums.price / lTrials) / (lTrials - 1)
  ⟨meanPrice, underRoot, lTrials, sqrt underRoot / sqrt lTrials⟩

/-- The simulation and its results, with the payoffs that were accumulated. -/
def simulate (sqrt : 𝕂 → 𝕂) (routines : Routines 𝕂 σ) (plan : Plan 𝕂) (blockSize lTrials : Nat)
    (seed : σ) (fuel : Nat) : Option (Except Int (List 𝕂 × Results 𝕂)) := do
  let sums ← simLoop routines plan blockSize lTrials fuel 0 ⟨0, 0, seed, []⟩
  some (sums.map fun sums => (sums.payoffs, sums.results sqrt lTrials))

end Simulation

section Sample

variable [Field 𝕂] {payoffs : List 𝕂}

/-- The sample variance. -/
def sampleVariance (payoffs : List 𝕂) : 𝕂 :=
  (payoffs.map fun payoff => (payoff - payoffs.sum / payoffs.length) ^ 2).sum / (payoffs.length - 1)

/-- The squares of the distances from a value. -/
theorem sum_distances (payoffs : List 𝕂) (center : 𝕂) :
    (payoffs.map fun payoff => (payoff - center) ^ 2).sum =
      (payoffs.map fun payoff => payoff * payoff).sum - (center + center) * payoffs.sum +
        payoffs.length * center ^ 2 := by
  induction payoffs with
  | nil => simp
  | cons payoff payoffs ih =>
    simp only [List.map_cons, List.sum_cons, List.length_cons, Nat.cast_succ, ih]
    ring

/-- The sample variance from the sums that the simulation accumulates. -/
theorem sampleVariance_eq (some_ : (payoffs.length : 𝕂) ≠ 0) :
    sampleVariance payoffs =
      ((payoffs.map fun payoff => payoff * payoff).sum -
        payoffs.sum * payoffs.sum / payoffs.length) / (payoffs.length - 1) := by
  rw [sampleVariance, sum_distances]
  congr 1
  field_simp
  ring

variable [LinearOrder 𝕂] [IsStrictOrderedRing 𝕂]

/-- A sum of squares is not negative. -/
theorem sum_squares_nonneg (payoffs : List 𝕂) :
    0 ≤ (payoffs.map fun payoff => payoff * payoff).sum := by
  apply List.sum_nonneg
  intro square known
  obtain ⟨payoff, -, rfl⟩ := List.mem_map.mp known
  exact mul_self_nonneg payoff

/-- A sample variance is not negative. -/
theorem sampleVariance_nonneg (some_ : 1 ≤ payoffs.length) : 0 ≤ sampleVariance payoffs := by
  apply div_nonneg
  · apply List.sum_nonneg
    intro square known
    obtain ⟨payoff, -, rfl⟩ := List.mem_map.mp known
    exact sq_nonneg _
  · exact sub_nonneg.mpr (by exact_mod_cast some_)

/-- Only zeros have no squares. -/
theorem sum_squares_eq_zero_iff :
    (payoffs.map fun payoff => payoff * payoff).sum = 0 ↔ ∀ payoff ∈ payoffs, payoff = 0 := by
  induction payoffs with
  | nil => simp
  | cons payoff payoffs ih =>
    rw [List.map_cons, List.sum_cons,
      add_eq_zero_iff_of_nonneg (mul_self_nonneg payoff) (sum_squares_nonneg payoffs), ih,
      mul_self_eq_zero, List.forall_mem_cons]

end Sample

section Blocks

variable [Field 𝕂] [LinearOrder 𝕂] {routines : Routines 𝕂 σ} {plan : Plan 𝕂}
  {blockSize lTrials : Nat} {sums : Sums 𝕂 σ}

/-- The payoffs of a block that is simulated with a seed. -/
def block (routines : Routines 𝕂 σ) (plan : Plan 𝕂) (blockSize : Nat) (seed : σ) : List 𝕂 :=
  let path := (routines.simPath seed).2.1
  let payoffFactors := (routines.discountFactors plan.iN plan.dYears
    (blocked blockSize fun i b => path i b)).2
  let swapFactors := (routines.discountFactors plan.iSwapVectorLength plan.dSwapVectorYears
    (blocked blockSize fun i b => path plan.iSwapStartTimeIndex (i * blockSize + b))).2
  (List.range blockSize).map (discSwaptionPayoff plan blockSize swapFactors payoffFactors)

/-- The seed of a block. -/
def seedAt (routines : Routines 𝕂 σ) (seed : σ) : Nat → σ
  | 0 => seed
  | k + 1 => (routines.simPath (seedAt routines seed k)).2.2

/-- The payoffs of the first blocks. -/
def payoffsOf (routines : Routines 𝕂 σ) (plan : Plan 𝕂) (blockSize : Nat) (seed : σ)
    (blocks : Nat) : List 𝕂 :=
  (List.range blocks).flatMap fun k => block routines plan blockSize (seedAt routines seed k)

/-- The number of payoffs of some blocks. -/
theorem length_payoffsOf (seed : σ) (blocks : Nat) :
    (payoffsOf routines plan blockSize seed blocks).length = blocks * blockSize := by
  simp [payoffsOf, block, List.length_flatMap]

omit [LinearOrder 𝕂] in
/-- Payoffs are accumulated one after another. -/
theorem foldl_accumulate (payoff : Nat → 𝕂) (trials : List Nat) :
    trials.foldl (fun sums b => sums.accumulate (payoff b)) sums =
      { sums with
        price := sums.price + (trials.map payoff).sum
        square := sums.square + ((trials.map payoff).map fun payoff => payoff * payoff).sum
        payoffs := sums.payoffs ++ trials.map payoff } := by
  induction trials generalizing sums with
  | nil => simp
  | cons b trials ih =>
    rw [List.foldl_cons, ih]
    simp [Sums.accumulate, add_assoc]

/-- A block adds its payoffs to the accumulators. -/
theorem simBlock_eq (succeed : routines.Succeed) :
    simBlock routines plan blockSize sums =
      .ok {
        price := sums.price + (block routines plan blockSize sums.seed).sum
        square := sums.square +
          ((block routines plan blockSize sums.seed).map fun payoff => payoff * payoff).sum
        seed := (routines.simPath sums.seed).2.2
        payoffs := sums.payoffs ++ block routines plan blockSize sums.seed } := by
  rw [simBlock]
  simp only [succeed.simPath, succeed.discountFactors, ne_eq, not_true_eq_false, if_false]
  rw [foldl_accumulate]
  rfl

/-- The accumulators after some blocks. -/
def sumsAfter (routines : Routines 𝕂 σ) (plan : Plan 𝕂) (blockSize : Nat) (seed : σ)
    (blocks : Nat) : Sums 𝕂 σ where
  price := (payoffsOf routines plan blockSize seed blocks).sum
  square := ((payoffsOf routines plan blockSize seed blocks).map fun payoff => payoff * payoff).sum
  seed := seedAt routines seed blocks
  payoffs := payoffsOf routines plan blockSize seed blocks

/-- A block leads from the accumulators after some blocks to those after one more. -/
theorem simBlock_after (succeed : routines.Succeed) (seed : σ) (blocks : Nat) :
    simBlock routines plan blockSize (sumsAfter routines plan blockSize seed blocks) =
      .ok (sumsAfter routines plan blockSize seed (blocks + 1)) := by
  rw [simBlock_eq succeed]
  simp [sumsAfter, payoffsOf, seedAt, List.range_succ]

/-- The loop goes on to the first multiple of the block size that is not less than the trials. -/
theorem simLoop_eq (succeed : routines.Succeed) (seed : σ) {blocks : Nat}
    (enough : lTrials ≤ blocks * blockSize)
    (less : ∀ k < blocks, k * blockSize < lTrials) :
    simLoop routines plan blockSize lTrials (blocks + 1) 0 ⟨0, 0, seed, []⟩ =
      some (.ok (sumsAfter routines plan blockSize seed blocks)) := by
  have rounds : ∀ rest k, k + rest = blocks →
      simLoop routines plan blockSize lTrials (rest + 1) (k * blockSize)
        (sumsAfter routines plan blockSize seed k) =
        some (.ok (sumsAfter routines plan blockSize seed blocks)) := by
    intro rest
    induction rest with
    | zero =>
      intro k total
      obtain rfl : k = blocks := by omega
      rw [simLoop, if_neg (by omega)]
    | succ rest ih =>
      intro k total
      have below := less k (by omega)
      rw [simLoop, if_pos (by omega), simBlock_after succeed]
      rw [← Nat.succ_mul]
      exact ih (k + 1) (by omega)
  have all := rounds blocks 0 (by omega)
  rw [Nat.zero_mul] at all
  exact all

end Blocks

/-- The results estimate the payoffs: the price is their mean, and the value under the roots of the
standard error is their sample variance, which is not negative, divided by their number. -/
structure Estimates [Field 𝕂] [LinearOrder 𝕂] (payoffs : List 𝕂) (results : Results 𝕂) :
    Prop where
  mean : results.meanPrice = payoffs.sum / payoffs.length
  variance :
    results.underRoot / results.underDivisor = sampleVariance payoffs / payoffs.length
  nonneg : 0 ≤ results.underRoot

section Estimate

variable [Field 𝕂] [LinearOrder 𝕂] [IsStrictOrderedRing 𝕂] {payoffs : List 𝕂} {lTrials : Nat}

/-- Results that divide by the number of the payoffs. -/
theorem estimates_of_length (sqrt : 𝕂 → 𝕂) (payoffs : List 𝕂) (seed : σ)
    (trials : 2 ≤ payoffs.length) :
    Estimates payoffs (Sums.results sqrt payoffs.length
      ⟨payoffs.sum, (payoffs.map fun payoff => payoff * payoff).sum, seed, payoffs⟩) := by
  have some_ : (payoffs.length : 𝕂) ≠ 0 := by
    have positive : payoffs.length ≠ 0 := by omega
    exact_mod_cast positive
  refine ⟨rfl, ?_, ?_⟩
  · simp only [Sums.results]
    rw [sampleVariance_eq some_]
  · simp only [Sums.results]
    rw [← sampleVariance_eq some_]
    exact sampleVariance_nonneg (by omega)

/-- Zeros are estimated right with every number of trials. -/
theorem estimates_of_zero (sqrt : 𝕂 → 𝕂) (seed : σ) (zero : ∀ payoff ∈ payoffs, payoff = 0) :
    Estimates payoffs (Sums.results sqrt lTrials
      ⟨payoffs.sum, (payoffs.map fun payoff => payoff * payoff).sum, seed, payoffs⟩) := by
  have sum : payoffs.sum = 0 := List.sum_eq_zero zero
  have squares : (payoffs.map fun payoff => payoff * payoff).sum = 0 :=
    sum_squares_eq_zero_iff.mpr zero
  have variance : sampleVariance payoffs = 0 := by
    rw [sampleVariance, sum_distances, sum, squares]
    simp
  refine ⟨?_, ?_, ?_⟩ <;> simp [Sums.results, sum, squares, variance]

/-- Of more payoffs than trials only zeros are estimated right. -/
theorem zero_of_estimates (sqrt : 𝕂 → 𝕂) (seed : σ) (trials : 2 ≤ lTrials)
    (more : lTrials < payoffs.length)
    (estimates : Estimates payoffs (Sums.results sqrt lTrials
      ⟨payoffs.sum, (payoffs.map fun payoff => payoff * payoff).sum, seed, payoffs⟩)) :
    ∀ payoff ∈ payoffs, payoff = 0 := by
  have two : (2 : 𝕂) ≤ lTrials := by exact_mod_cast trials
  have less : (lTrials : 𝕂) < payoffs.length := by exact_mod_cast more
  set number := (payoffs.length : 𝕂)
  set count := (lTrials : 𝕂)
  have mean := estimates.mean
  have variance := estimates.variance
  simp only [Sums.results] at mean variance
  have sum : payoffs.sum = 0 := by
    rw [div_eq_div_iff (by linarith) (by linarith)] at mean
    have apart : payoffs.sum * (number - count) = 0 := by linarith
    exact (mul_eq_zero.mp apart).resolve_right (by linarith)
  rw [sampleVariance_eq (by linarith), sum] at variance
  simp only [zero_mul, zero_div, sub_zero] at variance
  rw [div_div, div_div, div_eq_div_iff (by nlinarith) (by nlinarith)] at variance
  rw [← sum_squares_eq_zero_iff]
  have apart : (payoffs.map fun payoff => payoff * payoff).sum *
      ((number - 1) * number - (count - 1) * count) = 0 := by linarith
  exact (mul_eq_zero.mp apart).resolve_right (by nlinarith)

end Estimate

section Run

variable {blockSize lTrials : Nat}

/-- The number of blocks. -/
def blocksOf (blockSize lTrials : Nat) : Nat := (lTrials + blockSize - 1) / blockSize

/-- The blocks have enough trials. -/
theorem le_blocksOf (positive : 1 ≤ blockSize) :
    lTrials ≤ blocksOf blockSize lTrials * blockSize := by
  have below := Nat.lt_mul_div_succ (lTrials + blockSize - 1) positive
  rw [Nat.mul_succ, Nat.mul_comm] at below
  rw [blocksOf]
  omega

/-- A block begins before the last trial. -/
theorem lt_of_lt_blocksOf (positive : 1 ≤ blockSize) {k : Nat}
    (less : k < blocksOf blockSize lTrials) : k * blockSize < lTrials := by
  have le : (k + 1) * blockSize ≤ lTrials + blockSize - 1 :=
    (Nat.le_div_iff_mul_le positive).mp less
  rw [Nat.succ_mul] at le
  omega

/-- The blocks have as many trials as there should be when the block size divides the trials. -/
theorem blocksOf_mul_eq_iff (positive : 1 ≤ blockSize) :
    blocksOf blockSize lTrials * blockSize = lTrials ↔ blockSize ∣ lTrials := by
  constructor
  · intro whole
    exact Dvd.intro_left _ whole
  · rintro ⟨blocks, rfl⟩
    rw [blocksOf, Nat.add_sub_assoc positive, Nat.mul_add_div positive,
      Nat.div_eq_of_lt (by omega), Nat.add_zero, Nat.mul_comm]

variable [Field 𝕂] [LinearOrder 𝕂] {routines : Routines 𝕂 σ}

/-- The simulation ends with the results for the payoffs of all blocks. -/
theorem simulate_eq (sqrt : 𝕂 → 𝕂) (succeed : routines.Succeed) (plan : Plan 𝕂) (seed : σ)
    (positive : 1 ≤ blockSize) :
    simulate sqrt routines plan blockSize lTrials seed (blocksOf blockSize lTrials + 1) =
      some (.ok (payoffsOf routines plan blockSize seed (blocksOf blockSize lTrials),
        (sumsAfter routines plan blockSize seed (blocksOf blockSize lTrials)).results sqrt
          lTrials)) := by
  rw [simulate, simLoop_eq succeed seed (le_blocksOf positive)
    (fun k less => lt_of_lt_blocksOf positive less)]
  rfl

variable [IsStrictOrderedRing 𝕂]

/-- The simulation ends, and its results estimate the payoffs when the block size divides the trials
or all payoffs are zero. -/
theorem simulate_estimates_iff (sqrt : 𝕂 → 𝕂) (routines : Routines 𝕂 σ) (plan : Plan 𝕂)
    (blockSize lTrials : Nat) (seed : σ) (succeed : routines.Succeed) (trials : 2 ≤ lTrials)
    (positive : 1 ≤ blockSize) :
    ∃ fuel results,
      simulate sqrt routines plan blockSize lTrials seed fuel =
          some (.ok
            (payoffsOf routines plan blockSize seed (blocksOf blockSize lTrials), results)) ∧
        results.stdError = sqrt results.underRoot / sqrt results.underDivisor ∧
        (Estimates (payoffsOf routines plan blockSize seed (blocksOf blockSize lTrials)) results ↔
          blockSize ∣ lTrials ∨
            ∀ payoff ∈ payoffsOf routines plan blockSize seed (blocksOf blockSize lTrials),
              payoff = 0) := by
  refine ⟨_, _, simulate_eq sqrt succeed plan seed positive, rfl, ?_⟩
  set payoffs := payoffsOf routines plan blockSize seed (blocksOf blockSize lTrials) with all
  have length : payoffs.length = blocksOf blockSize lTrials * blockSize :=
    length_payoffsOf seed _
  have least : lTrials ≤ blocksOf blockSize lTrials * blockSize := le_blocksOf positive
  constructor
  · intro estimates
    by_cases divides : blockSize ∣ lTrials
    · exact Or.inl divides
    · right
      have apart : blocksOf blockSize lTrials * blockSize ≠ lTrials :=
        fun same => divides ((blocksOf_mul_eq_iff positive).mp same)
      exact zero_of_estimates sqrt _ trials (by omega) estimates
  · rintro (divides | zero)
    · have same : payoffs.length = lTrials :=
        length.trans ((blocksOf_mul_eq_iff positive).mpr divides)
      have estimates := estimates_of_length sqrt payoffs
        (seedAt routines seed (blocksOf blockSize lTrials)) (by omega)
      rwa [same] at estimates
    · exact estimates_of_zero sqrt _ zero

end Run

/-- Routines that succeed, with discount factors of one. -/
def flatRoutines : Routines ℝ Unit where
  simPath seed := (1, fun _ _ => 0, seed)
  discountFactors _ _ _ := (1, fun _ => 1)

/-- The routines of the sample succeed. -/
theorem flatRoutines_succeed : flatRoutines.Succeed := ⟨fun _ => rfl, fun _ _ _ => rfl⟩

/-- A swap with one payment, which makes a payoff of one. -/
def onePayment : Plan ℝ where
  iN := 1
  dYears := 1
  iSwapVectorLength := 1
  iSwapStartTimeIndex := 0
  dSwapVectorYears := 1
  pdSwapPayoffs _ := 1 + 1

/-- Four trials in two blocks. -/
theorem simulate_estimates_iff_sample :
    ∃ fuel results,
      simulate Real.sqrt flatRoutines onePayment 2 4 () fuel =
          some (.ok (payoffsOf flatRoutines onePayment 2 () (blocksOf 2 4), results)) ∧
        results.stdError = Real.sqrt results.underRoot / Real.sqrt results.underDivisor ∧
        (Estimates (payoffsOf flatRoutines onePayment 2 () (blocksOf 2 4)) results ↔
          2 ∣ 4 ∨ ∀ payoff ∈ payoffsOf flatRoutines onePayment 2 () (blocksOf 2 4), payoff = 0) :=
  simulate_estimates_iff Real.sqrt flatRoutines onePayment 2 4 () flatRoutines_succeed (by decide)
    (by decide)

/-- Three trials in blocks of two: four payoffs of one have the price 4/3, and the value under the
root is negative. -/
theorem simulate_estimates_fails :
    ∃ fuel payoffs results,
      simulate Real.sqrt flatRoutines onePayment 2 3 () fuel = some (.ok (payoffs, results)) ∧
        ¬ results.meanPrice = payoffs.sum / payoffs.length ∧ results.underRoot < 0 := by
  have ones : payoffsOf flatRoutines onePayment 2 () (blocksOf 2 3) = [1, 1, 1, 1] := by
    have pay : ∀ b, discSwaptionPayoff onePayment 2 (fun _ => 1) (fun _ => 1) b = 1 := by
      intro b
      simp [discSwaptionPayoff, onePayment]
    have blocks : block flatRoutines onePayment 2 () = [1, 1] := by
      simp [block, flatRoutines, pay, List.range_succ]
    simp [payoffsOf, blocksOf, blocks, List.range_succ]
  refine ⟨_, _, _, simulate_eq Real.sqrt flatRoutines_succeed onePayment () (by decide), ?_, ?_⟩
  · simp only [Sums.results, sumsAfter, ones]
    norm_num
  · simp only [Sums.results, sumsAfter, ones]
    norm_num

end P3arsec.Swaptions
