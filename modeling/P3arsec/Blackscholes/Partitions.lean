import P3arsec.Blackscholes.Caf

/-!
# The static partitions of the options

The threads take `numOptions / nThreads` options each, so that the options that remain are priced by
none. The threads of the vector version go through such a part in steps of `NCO` options, the last
of which leaves the part when `NCO` does not divide it. The maps of actors divide all options among
their workers, but take the request `(0, numOptions)` as one with an inclusive end, while the
workers take the end of a part as an exclusive one: the entry after the last option is priced too.
-/

namespace P3arsec.Blackscholes

open P3arsec.Lib

variable {numOptions nThreads nco nw : Nat}

/-- The loop over the options of a part: the indices at which the arrays are read and `prices` is
written. -/
def priceLoop (start stop : Nat) : List Nat := List.range' start (stop - start)

/-- `bs_thread`: the options that a thread prices in each run. -/
def bsThread (numOptions nThreads tid : Nat) : List (List Nat) :=
  let start := tid * (numOptions / nThreads)
  let stop := start + numOptions / nThreads
  List.replicate numRuns (priceLoop start stop)

/-- The loop of the vector version over the options of a part; `NCO` is positive. -/
def simdLoop (nco stop i : Nat) : List Nat :=
  if i < stop ∧ 0 < nco then List.range' i nco ++ simdLoop nco stop (i + nco) else []
termination_by stop - i

/-- `bs_thread` of the vector version. -/
def simdThread (numOptions nThreads nco tid : Nat) : List (List Nat) :=
  let start := tid * (numOptions / nThreads)
  let stop := start + numOptions / nThreads
  List.replicate numRuns (simdLoop nco stop start)

/-- The variables of the loop of `map` over its workers. -/
structure Split where
  /-- `p_start`. -/
  pStart : Nat
  /-- `plus`. -/
  plus : Nat
  /-- The messages that were sent, one to each worker. -/
  sent : List (Nat × Nat)
  deriving DecidableEq, Repr

/-- One round of the loop of `map`. -/
def Split.round (chunk : Nat) (split : Split) : Split :=
  let pEnd := split.pStart + chunk
  let pEnd := if 0 < split.plus then pEnd + 1 else pEnd
  let plus := if 0 < split.plus then split.plus - 1 else split.plus
  ⟨pEnd, plus, split.sent ++ [(split.pStart, pEnd)]⟩

/-- The parts that `map` sends to its workers for a request. -/
def parts (nw start stop : Nat) : List (Nat × Nat) :=
  let nv := stop - start + 1
  let chunk := nv / nw
  let plus := nv % nw
  ((List.range nw).foldl (fun split _ => split.round chunk) (⟨start, plus, []⟩ : Split)).sent

/-- `map_worker` of the first version. -/
def CafV1.mapWorker (start stop : Nat) : List Nat := priceLoop start stop

/-- `map` of the first version. -/
def CafV1.map (nw start stop : Nat) : List (Nat × Nat) := parts nw start stop

/-- `map_worker` of the second version, which answers when it is done. -/
def CafV2.mapWorker (start stop : Nat) : List Nat := priceLoop start stop

/-- `map` of the second version, which answers when all workers have answered. -/
def CafV2.map (nw start stop : Nat) : List (Nat × Nat) := parts nw start stop

/-- What the workers of the first version do. In each run `main` sends the request
`(0, numOptions)` to `map`. -/
def CafV1.workers (numOptions nw : Nat) : List (List (List Nat)) :=
  (map nw 0 numOptions).map fun message => List.replicate numRuns (mapWorker message.1 message.2)

/-- What the workers of the second version do. -/
def CafV2.workers (numOptions nw : Nat) : List (List (List Nat)) :=
  (map nw 0 numOptions).map fun message => List.replicate numRuns (mapWorker message.1 message.2)

/-- What the threads do. -/
def bsThreads (numOptions nThreads : Nat) : List (List (List Nat)) :=
  (List.range nThreads).map (bsThread numOptions nThreads)

/-- What the threads of the vector version do. -/
def simdThreads (numOptions nThreads nco : Nat) : List (List (List Nat)) :=
  (List.range nThreads).map (simdThread numOptions nThreads nco)

/-- In each run every option is priced exactly once and no other entry is read or written. -/
def Exact (numOptions : Nat) (workers : List (List (List Nat))) : Prop :=
  ∀ run < numRuns, (workers.flatMap fun runs => runs.getD run []).Perm (List.range numOptions)

/-- Workers that do the same in each run. -/
theorem exact_replicate {ι : Type} (workers : List ι) (part : ι → List Nat) :
    Exact numOptions (workers.map fun worker => List.replicate numRuns (part worker)) ↔
      (workers.flatMap part).Perm (List.range numOptions) := by
  have same : ∀ run < numRuns,
      ((workers.map fun worker => List.replicate numRuns (part worker)).flatMap
        fun runs => runs.getD run []) = workers.flatMap part := by
    intro run inside
    rw [List.flatMap_map]
    congr 1
    funext worker
    simp [List.getD_eq_getElem?_getD, inside]
  constructor
  · intro all
    rw [← same 0 (by decide)]
    exact all 0 (by decide)
  · intro perm run inside
    rw [same run inside]
    exact perm

/-- Parts of `len` options that begin at multiples of the even share are exact only when the share
has no remainder and they are no longer than the share. -/
theorem shares_perm_iff {len : Nat} (positive : 0 < nThreads) :
    ((List.range nThreads).flatMap fun tid =>
        List.range' (tid * (numOptions / nThreads)) len).Perm (List.range numOptions) ↔
      len = numOptions / nThreads ∧ nThreads ∣ numOptions := by
  constructor
  · intro perm
    have total : nThreads * len = numOptions := by
      have lengths := perm.length_eq
      rw [List.length_flatMap, List.length_range] at lengths
      simpa using lengths
    refine ⟨?_, ⟨len, total.symm⟩⟩
    rw [← total, Nat.mul_div_cancel_left len positive]
  · rintro ⟨rfl, divides⟩
    have parts := Chunks.flatMap_parts (fun tid => tid * (numOptions / nThreads))
      (fun tid => Nat.mul_le_mul_right _ (Nat.le_succ tid)) nThreads
    have share : ∀ tid, (tid + 1) * (numOptions / nThreads) - tid * (numOptions / nThreads) =
        numOptions / nThreads := by
      intro tid
      rw [Nat.succ_mul, Nat.add_sub_cancel_left]
    simp only [share, Nat.zero_mul, Nat.sub_zero] at parts
    rw [parts, Nat.mul_div_cancel' divides, ← List.range_eq_range']

/-- The threads price every option exactly once when their number divides that of the options. -/
theorem bsThreads_exact_iff (positive : 0 < nThreads) :
    Exact numOptions (bsThreads numOptions nThreads) ↔ nThreads ∣ numOptions := by
  have part : ∀ tid, bsThread numOptions nThreads tid =
      List.replicate numRuns (List.range' (tid * (numOptions / nThreads))
        (numOptions / nThreads)) := by
    intro tid
    simp [bsThread, priceLoop]
  simp only [bsThreads, funext part]
  rw [exact_replicate, shares_perm_iff positive]
  simp

/-- The loop of the vector version goes through a part that is rounded up. -/
theorem simdLoop_eq (width : 0 < nco) (stop i : Nat) :
    simdLoop nco stop i = List.range' i ((stop - i + nco - 1) / nco * nco) := by
  induction i using simdLoop.induct nco stop with
  | case1 i inside ih =>
    rw [simdLoop, if_pos inside, ih, List.range'_append_1]
    congr 1
    have rounds : (stop - i + nco - 1) / nco = (stop - (i + nco) + nco - 1) / nco + 1 := by
      rcases Nat.le_total (i + nco) stop with more | last
      · rw [← Nat.add_div_right _ width]
        congr 1
        omega
      · have less : (nco - 1) / nco = 0 := Nat.div_eq_of_lt (Nat.sub_one_lt_of_lt width)
        rw [show stop - (i + nco) = 0 by omega, Nat.zero_add, less, Nat.zero_add,
          show stop - i + nco - 1 = stop - i - 1 + nco by omega, Nat.add_div_right _ width,
          Nat.div_eq_of_lt (by omega)]
    rw [rounds, Nat.succ_mul, Nat.add_comm]
  | case2 i outside =>
    have none : stop - i = 0 := by omega
    rw [simdLoop, if_neg outside, none, Nat.div_eq_of_lt (by omega), Nat.zero_mul]
    rfl

/-- The threads of the vector version price every option exactly once when `NCO` divides the parts
too. -/
theorem simdThreads_exact_iff (positive : 0 < nThreads) (width : 0 < nco) :
    Exact numOptions (simdThreads numOptions nThreads nco) ↔
      nThreads ∣ numOptions ∧ nco ∣ numOptions / nThreads := by
  have part : ∀ tid, simdThread numOptions nThreads nco tid =
      List.replicate numRuns (List.range' (tid * (numOptions / nThreads))
        ((numOptions / nThreads + nco - 1) / nco * nco)) := by
    intro tid
    simp [simdThread, simdLoop_eq width]
  simp only [simdThreads, funext part]
  rw [exact_replicate, shares_perm_iff positive, and_comm]
  apply and_congr_right
  intro _
  constructor
  · intro whole
    exact Dvd.intro_left _ whole
  · rintro ⟨rounds, total⟩
    rw [total, Nat.add_sub_assoc width, Nat.mul_add_div width, Nat.div_eq_of_lt (by omega),
      Nat.add_zero, Nat.mul_comm]

/-- The parts that `map` sends follow one another. -/
theorem parts_eq (nw start stop : Nat) :
    parts nw start stop = (List.range nw).map fun iw =>
      (start + Chunks.offset ((stop - start + 1) / nw) ((stop - start + 1) % nw) iw,
        start + Chunks.offset ((stop - start + 1) / nw) ((stop - start + 1) % nw) (iw + 1)) := by
  set chunk := (stop - start + 1) / nw
  set plus := (stop - start + 1) % nw
  have rounds : ∀ count, (List.range count).foldl (fun split _ => split.round chunk)
      (⟨start, plus, []⟩ : Split) =
      ⟨start + Chunks.offset chunk plus count, plus - count, (List.range count).map fun iw =>
        (start + Chunks.offset chunk plus iw, start + Chunks.offset chunk plus (iw + 1))⟩ := by
    intro count
    induction count with
    | zero => simp
    | succ count ih =>
      have next : Chunks.offset chunk plus (count + 1) = Chunks.offset chunk plus count + chunk +
          if 0 < plus - count then 1 else 0 := Chunks.offset_succ
      rw [List.range_succ, List.foldl_append, ih, List.map_append]
      simp only [List.foldl_cons, List.foldl_nil, Split.round, Split.mk.injEq]
      split <;> simp_all <;> omega
  rw [parts, rounds]

/-- The parts that `map` sends for the request of `main` make up one index more than there are
options. -/
theorem parts_flatMap (positive : 0 < nw) :
    (parts nw 0 numOptions).flatMap (fun message => priceLoop message.1 message.2) =
      List.range (numOptions + 1) := by
  set chunk := (numOptions + 1) / nw with chunk_eq
  set plus := (numOptions + 1) % nw with plus_eq
  have less : plus ≤ nw := (Nat.mod_lt _ positive).le
  have parts := Chunks.flatMap_parts (Chunks.offset chunk plus)
    (fun k => by
      rw [Chunks.offset_succ, Nat.add_assoc]
      exact Nat.le_add_right _ _) nw
  rw [Chunks.offset_count less, Chunks.offset_zero, Nat.sub_zero, Nat.div_add_mod,
    ← List.range_eq_range'] at parts
  rw [parts_eq, List.flatMap_map]
  simpa [priceLoop] using parts

/-- The workers of the first version price one entry more than there are options. -/
theorem cafV1_perm (positive : 0 < nw) :
    Exact numOptions (CafV1.workers numOptions nw) ↔
      (List.range (numOptions + 1)).Perm (List.range numOptions) := by
  rw [CafV1.workers, exact_replicate, ← parts_flatMap positive]
  rfl

/-- The workers of the second version price one entry more than there are options. -/
theorem cafV2_perm (positive : 0 < nw) :
    Exact numOptions (CafV2.workers numOptions nw) ↔
      (List.range (numOptions + 1)).Perm (List.range numOptions) := by
  rw [CafV2.workers, exact_replicate, ← parts_flatMap positive]
  rfl

/-- A range is not as long as the next one. -/
theorem range_succ_not_perm (count : Nat) :
    ¬ (List.range (count + 1)).Perm (List.range count) := by
  intro perm
  have lengths := perm.length_eq
  simp at lengths

/-- When the partitions price every option exactly once: the threads when their number divides that
of the options, those of the vector version when `NCO` divides the parts too, and the workers of the
actors never. -/
theorem partitions_exact_iff (numOptions nThreads nco requested nw : Nat) (positive : 0 < nThreads)
    (_enough : nThreads ≤ numOptions) (width : 0 < nco) (workers : 0 < nw) :
    (Exact numOptions (bsThreads numOptions nThreads) ↔ nThreads ∣ numOptions) ∧
      (Exact numOptions (simdThreads numOptions nThreads nco) ↔
        nThreads ∣ numOptions ∧ nco ∣ numOptions / nThreads) ∧
      ¬ Exact requested (CafV1.workers requested nw) ∧
      ¬ Exact requested (CafV2.workers requested nw) := by
  refine ⟨bsThreads_exact_iff positive, simdThreads_exact_iff positive width, ?_, ?_⟩
  · rw [cafV1_perm workers]
    exact range_succ_not_perm requested
  · rw [cafV2_perm workers]
    exact range_succ_not_perm requested

/-- Six options for two threads and four options for two workers. -/
theorem partitions_exact_iff_sample :
    (Exact 6 (bsThreads 6 2) ↔ 2 ∣ 6) ∧ (Exact 6 (simdThreads 6 2 2) ↔ 2 ∣ 6 ∧ 2 ∣ 6 / 2) ∧
      ¬ Exact 4 (CafV1.workers 4 2) ∧ ¬ Exact 4 (CafV2.workers 4 2) :=
  partitions_exact_iff 6 2 2 4 2 (by decide) (by decide) (by decide) (by decide)

/-- Two threads leave the last of five options out, the loops of two threads of the vector version
with `NCO = 2` both come to the fourth of six options, and the actors price a fifth entry of four
options. -/
theorem partitions_inexact :
    ¬ Exact 5 (bsThreads 5 2) ∧ ¬ Exact 6 (simdThreads 6 2 2) ∧
      ¬ Exact 4 (CafV1.workers 4 2) ∧ ¬ Exact 4 (CafV2.workers 4 2) := by
  refine ⟨?_, ?_, ?_, ?_⟩
  · rw [bsThreads_exact_iff (by decide)]
    decide
  · rw [simdThreads_exact_iff (by decide) (by decide)]
    decide
  · rw [cafV1_perm (by decide)]
    exact range_succ_not_perm 4
  · rw [cafV2_perm (by decide)]
    exact range_succ_not_perm 4

end P3arsec.Blackscholes
