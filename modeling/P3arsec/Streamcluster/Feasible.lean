import P3arsec.Streamcluster.Kmedian

/-!
# Points that may become centers

`selectfeasible_fast` takes a random number up to the total weight and searches the sums of the
weights by halving. The variables
of the search are of type `int`, and so is their sum, which is out of range when the search comes to
the last of more than 2^30+1 points. The number of points to draw is a multiple of `kmin*log(kmin)`,
which is zero when `kmin` is one.
-/

namespace P3arsec.Streamcluster

section Search

variable {α : Type} [LinearOrder α]

/-- The binary search of `selectfeasible_fast` with variables of type `int`. There is no result
where a sum is out of range. -/
def searchInt (accumweight : Nat → α) (w : α) (l r : Nat) : Option Nat :=
  if l + 1 < r then
    if l + r ≤ intMax then
      let k := (l + r) / 2
      if accumweight k > w then searchInt accumweight w l k else searchInt accumweight w k r
    else none
  else some r
termination_by r - l

/-- The body of the loop of `selectfeasible_fast`: the point that is selected for a number. -/
def selectPoint (accumweight : Nat → α) (num : Nat) (w : α) : Option Nat :=
  if accumweight 0 > w then some 0 else searchInt accumweight w 0 (num - 1)

variable {accumweight : Nat → α} {num : Nat} {w : α}

/-- The search ends at the entry where the sums exceed the number, or at the last one. -/
theorem searchInt_spec {l r last : Nat} (ordered : l < r) (inside : r ≤ last)
    (range : 2 * last ≤ intMax + 2) (low : accumweight l ≤ w)
    (high : w < accumweight r ∨ r = last) :
    ∃ k, searchInt accumweight w l r = some k ∧ 0 < k ∧ k ≤ last ∧ accumweight (k - 1) ≤ w ∧
      (w < accumweight k ∨ k = last) := by
  fun_induction searchInt accumweight w l r with
  | case1 l r more fits middle left ih =>
    exact ih (by omega) (by omega) low (Or.inl left)
  | case2 l r more fits middle right ih =>
    exact ih (by omega) inside (not_lt.mp right) high
  | case3 l r more overflow => omega
  | case4 l r done =>
    have adjacent : r - 1 = l := by omega
    refine ⟨r, rfl, by omega, inside, ?_, high⟩
    rw [adjacent]
    exact low

/-- Where the sums never exceed the number, the search comes to the last entries, and a sum of their
numbers is out of range when there are many. -/
theorem searchInt_over {l r : Nat} (more : l + 1 < r) (many : intMax + 2 < 2 * r)
    (low : ∀ k < r, accumweight k ≤ w) : searchInt accumweight w l r = none := by
  fun_induction searchInt accumweight w l r with
  | case1 l r more fits middle left ih =>
    exact absurd (low middle (by omega)) (not_le.mpr left)
  | case2 l r more fits middle right ih => exact ih (by omega) many low
  | case3 l r more overflow => rfl
  | case4 l r done => exact absurd more done

/-- What the search promises for a number: the sum before the point is not greater, and the sum up
to the point is greater, unless it is the last point and the number is the total weight. -/
def Selects (accumweight : Nat → α) (num : Nat) (w : α) (r : Nat) : Prop :=
  r < num ∧ (r = 0 ∨ accumweight (r - 1) ≤ w) ∧
    (w < accumweight r ∨ r = num - 1 ∧ w = accumweight (num - 1))

/-- Where no sum is out of range a point is selected, as promised. -/
theorem selectPoint_spec (nonempty : 0 < num) (range : num ≤ 2 ^ 30 + 1)
    (high : w ≤ accumweight (num - 1)) :
    ∃ r, selectPoint accumweight num w = some r ∧ Selects accumweight num w r := by
  unfold selectPoint
  by_cases first : accumweight 0 > w
  · rw [if_pos first]
    exact ⟨0, rfl, nonempty, Or.inl rfl, Or.inl first⟩
  rw [if_neg first]
  have top : w < accumweight (num - 1) ∨ w = accumweight (num - 1) := lt_or_eq_of_le high
  by_cases single : num = 1
  · refine ⟨0, ?_, nonempty, Or.inl rfl, ?_⟩
    · simp [searchInt, single]
    · rw [single] at top ⊢
      exact top.imp_right fun total => ⟨rfl, total⟩
  · obtain ⟨r, found, positive, bound, low, top'⟩ := searchInt_spec (w := w) (l := 0)
      (r := num - 1) (by omega) le_rfl (by unfold intMax; omega) (not_lt.mp first)
      (Or.inr rfl)
    refine ⟨r, found, by omega, Or.inr low, ?_⟩
    rcases top' with inner | last
    · exact Or.inl inner
    · rw [last]
      exact top.imp_right fun total => ⟨rfl, total⟩

/-- The sums rise from point to point. -/
def Rises (accumweight : Nat → α) (num : Nat) : Prop :=
  ∀ i, i + 1 < num → accumweight i ≤ accumweight (i + 1)

/-- Rising sums keep the order. -/
theorem Rises.mono (rises : Rises accumweight num) {i j : Nat} (ordered : i ≤ j)
    (bound : j < num) : accumweight i ≤ accumweight j := by
  induction j, ordered using Nat.le_induction with
  | base => exact le_rfl
  | succ j ordered ih => exact (ih (by omega)).trans (rises j bound)

/-- The search for the total weight fails where there are many points. -/
theorem Rises.selectPoint_over (rises : Rises accumweight num) (many : 2 ^ 30 + 1 < num) :
    selectPoint accumweight num (accumweight (num - 1)) = none := by
  have low : ∀ k < num, accumweight k ≤ accumweight (num - 1) :=
    fun k bound => rises.mono (by omega) (by omega)
  unfold selectPoint
  rw [if_neg (not_lt.mpr (low 0 (by omega)))]
  refine searchInt_over (by omega) ?_ fun k bound => low k (by omega)
  unfold intMax
  omega

/-- A point is selected for the numbers from the sum before it up to its sum. -/
theorem Rises.selectPoint_iff (rises : Rises accumweight num) (range : num ≤ 2 ^ 30 + 1)
    {r : Nat} (bound : r < num) (below : w < accumweight (num - 1)) :
    selectPoint accumweight num w = some r ↔
      (r = 0 ∨ accumweight (r - 1) ≤ w) ∧ w < accumweight r := by
  obtain ⟨k, found, inside, low, high⟩ := selectPoint_spec (by omega) range below.le
  have high : w < accumweight k := high.resolve_right fun last => below.ne last.2
  constructor
  · intro selected
    obtain rfl := Option.some.inj (selected.symm.trans found)
    exact ⟨low, high⟩
  · rintro ⟨low', high'⟩
    -- the places of two points do not overlap
    have least : ¬r < k := by
      intro before
      have sum : accumweight (k - 1) ≤ w := low.resolve_left (by omega)
      exact absurd ((rises.mono (by omega) (by omega)).trans sum) (not_le.mpr high')
    have most : ¬k < r := by
      intro before
      have sum : accumweight (r - 1) ≤ w := low'.resolve_left (by omega)
      exact absurd ((rises.mono (by omega) (by omega)).trans sum) (not_le.mpr high)
    have same : k = r := by omega
    exact same ▸ found

end Search

variable {𝕂 : Type} [Field 𝕂] [LinearOrder 𝕂]

namespace Points

variable (points : Points 𝕂)

/-- `totalweight`. -/
def totalweight : 𝕂 := points.accumweight (points.num - 1)

/-- `selectfeasible_fast` for `ITER`, with the library's `log`. The number of points is one of
`int`: the program takes it from its arguments. -/
def selectfeasible [FloorSemiring 𝕂] (log : 𝕂 → 𝕂) (ITER : Nat) (rand : Nat → Nat)
    (kmin : Nat) : Option (List Nat) :=
  if ITER * kmin ≤ intMax then
    let many := (ITER * kmin : Nat) * log kmin
    let numfeasible := if many < (points.num : 𝕂) then ⌊many⌋₊ else points.num
    if numfeasible = points.num then some (List.range numfeasible)
    else (List.range numfeasible).mapM fun i =>
      selectPoint points.accumweight points.num ((rand i : 𝕂) / intMax * points.totalweight)
  else none

variable {points}

section Order

variable [IsStrictOrderedRing 𝕂]

/-- The sums of positive weights rise. -/
theorem rises_accumweight (weighted : points.Weighted) : Rises points.accumweight points.num :=
  fun i bound => le_add_of_nonneg_right (weighted (i + 1) bound).le

/-- No sum of positive weights is negative. -/
theorem accumweight_nonneg (weighted : points.Weighted) {i : Nat} (bound : i < points.num) :
    0 ≤ points.accumweight i := by
  have first : 0 ≤ points.accumweight 0 := (weighted 0 (by omega)).le
  exact first.trans ((rises_accumweight weighted).mono (Nat.zero_le i) bound)

end Order

/-! ### The number of points -/

/-- What is used of the library's `log`: it is zero at one, and it rises. -/
structure IsLog (log : 𝕂 → 𝕂) : Prop where
  /-- The logarithm of one. -/
  one : log 1 = 0
  /-- The logarithms of greater numbers. -/
  two : ∀ n : Nat, 2 ≤ n → 1 / 2 ≤ log n

/-- The natural logarithm is one. -/
theorem isLog_real : IsLog Real.log where
  one := Real.log_one
  two n large := by
    have half : (1 : ℝ) / 2 ≤ Real.log 2 := by
      have bound := Real.log_two_gt_d9
      linarith
    have rises : Real.log 2 ≤ Real.log n :=
      Real.log_le_log two_pos (by exact_mod_cast large)
    exact half.trans rises

/-- Where each entry of a list has a result, the list has. -/
theorem mapM_isSome {ι κ : Type} (f : ι → Option κ) (good : κ → Prop) (list : List ι)
    (each : ∀ x ∈ list, ∃ y, f x = some y ∧ good y) :
    ∃ result, list.mapM f = some result ∧ result.length = list.length ∧
      ∀ y ∈ result, good y := by
  induction list with
  | nil => exact ⟨[], rfl, rfl, fun y member => absurd member List.not_mem_nil⟩
  | cons x list ih =>
    obtain ⟨y, found, holds⟩ := each x List.mem_cons_self
    obtain ⟨result, finds, length, all⟩ := ih fun x member => each x (List.mem_cons_of_mem _ member)
    refine ⟨y :: result, ?_, ?_, ?_⟩
    · rw [List.mapM_cons, found, finds]
      rfl
    · rw [List.length_cons, List.length_cons, length]
    · intro z member
      rcases List.mem_cons.mp member with rfl | member
      · exact holds
      · exact all z member

variable [IsStrictOrderedRing 𝕂]

/-- What `pFL` needs of the points that may become centers: there is at least one, they are points,
and so each of its iterations finds one. -/
def Feasible (points : Points 𝕂) (feasible : List Nat) : Prop :=
  1 ≤ feasible.length ∧ (∀ x ∈ feasible, x < points.num) ∧
    ∀ i, ∃ x, feasible[i % feasible.length]? = some x ∧ x < points.num

omit [Field 𝕂] [LinearOrder 𝕂] [IsStrictOrderedRing 𝕂] in
/-- It is enough that there is one, and that they are points. -/
theorem Feasible.of_lt {feasible : List Nat} (length : 1 ≤ feasible.length)
    (inside : ∀ x ∈ feasible, x < points.num) : points.Feasible feasible := by
  refine ⟨length, inside, fun i => ?_⟩
  have bound : i % feasible.length < feasible.length := Nat.mod_lt i length
  exact ⟨feasible[i % feasible.length], List.getElem?_eq_getElem bound,
    inside _ (List.getElem_mem bound)⟩

/-- A random number gives a part of the total weight. -/
theorem scaled_le (weighted : points.Weighted) (nonempty : 0 < points.num) {rand : Nat}
    (range : rand ≤ intMax) : (rand : 𝕂) / intMax * points.totalweight ≤ points.totalweight := by
  have total : 0 ≤ points.totalweight := accumweight_nonneg weighted (by omega)
  have part : (rand : 𝕂) / intMax ≤ 1 := by
    have positive : (0 : 𝕂) < intMax := by
      have : 0 < intMax := by decide
      exact_mod_cast this
    rw [div_le_one positive]
    exact_mod_cast range
  exact mul_le_of_le_one_left total part

variable [FloorSemiring 𝕂]

/-- `ITER*kmin*log(kmin)` is at least one where `kmin` is at least two. -/
theorem one_le_many {log : 𝕂 → 𝕂} (isLog : IsLog log) {ITER kmin : Nat} (iter : 1 ≤ ITER)
    (least : 2 ≤ kmin) : 1 ≤ ((ITER * kmin : Nat) : 𝕂) * log kmin := by
  have product : 2 ≤ ITER * kmin := least.trans (Nat.le_mul_of_pos_left kmin iter)
  calc
    (1 : 𝕂) = 2 * (1 / 2) := (mul_one_div_cancel two_ne_zero).symm
    _ ≤ ((ITER * kmin : Nat) : 𝕂) * log kmin :=
      mul_le_mul (by exact_mod_cast product) (isLog.two kmin least) one_half_pos.le
        (Nat.cast_nonneg _)

/-- Where there are more points than the multiple, so many are drawn. -/
theorem selectfeasible_draws {log : 𝕂 → 𝕂} {ITER kmin : Nat} (rand : Nat → Nat)
    (range : ITER * kmin ≤ intMax)
    (more : ((ITER * kmin : Nat) : 𝕂) * log kmin < points.num) (nonempty : 0 < points.num) :
    points.selectfeasible log ITER rand kmin =
      (List.range ⌊((ITER * kmin : Nat) : 𝕂) * log kmin⌋₊).mapM fun i =>
        selectPoint points.accumweight points.num ((rand i : 𝕂) / intMax * points.totalweight) := by
  have fewer : ⌊((ITER * kmin : Nat) : 𝕂) * log kmin⌋₊ ≠ points.num := by
    have bound := (Nat.floor_lt' (Nat.pos_iff_ne_zero.mp nonempty)).mpr more
    exact Nat.ne_of_lt bound
  unfold selectfeasible
  rw [if_pos range]
  dsimp only
  rw [if_pos more, if_neg fewer]

omit [IsStrictOrderedRing 𝕂] in
/-- Where there are not, all points are. -/
theorem selectfeasible_all {log : 𝕂 → 𝕂} {ITER kmin : Nat} (rand : Nat → Nat)
    (range : ITER * kmin ≤ intMax)
    (few : (points.num : 𝕂) ≤ ((ITER * kmin : Nat) : 𝕂) * log kmin) :
    points.selectfeasible log ITER rand kmin = some (List.range points.num) := by
  unfold selectfeasible
  rw [if_pos range]
  dsimp only
  rw [if_neg (not_lt.mpr few), if_pos rfl]

/-- Points are found for all random numbers exactly when `kmin` is at least two, its multiple is in
range, and there are not more points than the search can handle unless all points are taken. -/
theorem selectfeasible_correct {log : 𝕂 → 𝕂} (isLog : IsLog log) (weighted : points.Weighted)
    {ITER kmin kmax : Nat} (iter : 1 ≤ ITER) (least : 1 ≤ kmin) (ordered : kmin ≤ kmax)
    (more : kmax < points.num) :
    (∀ rand : Nat → Nat, (∀ i, rand i ≤ intMax) →
      ∃ feasible, points.selectfeasible log ITER rand kmin = some feasible ∧
        points.Feasible feasible) ↔
      2 ≤ kmin ∧ ITER * kmin ≤ intMax ∧
        (points.num ≤ 2 ^ 30 + 1 ∨ (points.num : 𝕂) ≤ ((ITER * kmin : Nat) : 𝕂) * log kmin) := by
  have nonempty : 0 < points.num := by omega
  constructor
  · intro correct
    obtain ⟨feasible, found, -⟩ := correct (fun _ => 0) fun _ => Nat.zero_le _
    have range : ITER * kmin ≤ intMax := by
      by_contra overflow
      rw [selectfeasible, if_neg overflow] at found
      exact nomatch found
    have two : 2 ≤ kmin := by
      by_contra small
      obtain rfl : kmin = 1 := by omega
      have zero : ((ITER * 1 : Nat) : 𝕂) * log (1 : Nat) = 0 := by
        rw [Nat.cast_one, isLog.one, mul_zero]
      have positive : ((ITER * 1 : Nat) : 𝕂) * log (1 : Nat) < points.num := by
        rw [zero]
        exact_mod_cast nonempty
      obtain ⟨feasible, found, length, -⟩ := correct (fun _ => 0) fun _ => Nat.zero_le _
      rw [selectfeasible_draws _ range positive nonempty, zero, Nat.floor_zero] at found
      obtain rfl := Option.some.inj found
      exact absurd length (by decide)
    refine ⟨two, range, ?_⟩
    by_contra many
    obtain ⟨many, drawn⟩ := not_or.mp many
    obtain ⟨feasible, found, -⟩ := correct (fun _ => intMax) fun _ => le_rfl
    rw [selectfeasible_draws _ range (not_le.mp drawn) nonempty] at found
    have some : 1 ≤ ⌊((ITER * kmin : Nat) : 𝕂) * log kmin⌋₊ :=
      Nat.le_floor (by exact_mod_cast one_le_many isLog iter two)
    obtain ⟨n, count⟩ := Nat.exists_eq_succ_of_ne_zero (Nat.pos_iff_ne_zero.mp some)
    have positive : (intMax : 𝕂) ≠ 0 := by
      have : intMax ≠ 0 := by decide
      exact_mod_cast this
    have missing : selectPoint points.accumweight points.num points.totalweight = none :=
      (rises_accumweight weighted).selectPoint_over (by omega)
    rw [count, List.range_succ_eq_map, List.mapM_cons, div_self positive, one_mul, missing] at found
    exact nomatch found
  · rintro ⟨two, range, few⟩ rand inside
    by_cases drawn : ((ITER * kmin : Nat) : 𝕂) * log kmin < points.num
    · have bound : points.num ≤ 2 ^ 30 + 1 := few.resolve_right (not_le.mpr drawn)
      rw [selectfeasible_draws _ range drawn nonempty]
      obtain ⟨feasible, found, length, all⟩ := mapM_isSome
        (fun i => selectPoint points.accumweight points.num
          ((rand i : 𝕂) / intMax * points.totalweight))
        (fun x => x < points.num)
        (List.range ⌊((ITER * kmin : Nat) : 𝕂) * log kmin⌋₊) (by
          intro i _
          obtain ⟨r, found, selects⟩ := selectPoint_spec nonempty bound
            (scaled_le weighted nonempty (inside i))
          exact ⟨r, found, selects.1⟩)
      refine ⟨feasible, found, Feasible.of_lt ?_ all⟩
      rw [length, List.length_range]
      exact Nat.le_floor (by exact_mod_cast one_le_many isLog iter two)
    · rw [selectfeasible_all _ range (not_lt.mp drawn)]
      refine ⟨_, rfl, Feasible.of_lt ?_ fun x member => List.mem_range.mp member⟩
      rw [List.length_range]
      exact nonempty

/-- Three points of weight 1. -/
def unitPoints : Points ℝ := ⟨3, 0, fun _ => ⟨1, fun _ => 0, 0, 0⟩⟩

/-- Points are found for two medians or more. -/
theorem selectfeasible_correct_sample :
    ∃ feasible, unitPoints.selectfeasible Real.log 3 (fun _ => 0) 2 = some feasible ∧
      unitPoints.Feasible feasible :=
  (selectfeasible_correct isLog_real (fun _ _ => one_pos) (by decide) (by decide) (le_refl 2)
    (by decide)).mpr ⟨by decide, by decide, Or.inl (by decide)⟩ (fun _ => 0) fun _ => Nat.zero_le _

/-- No point is found for one median or two. -/
theorem selectfeasible_correct_fails : 2 < unitPoints.num ∧
    unitPoints.selectfeasible Real.log 3 (fun _ => 0) 1 = some [] ∧ ¬unitPoints.Feasible [] := by
  refine ⟨by decide, ?_, fun feasible => absurd feasible.1 (by decide)⟩
  rw [selectfeasible_draws _ (by decide) (by simp [unitPoints]) (by decide)]
  simp

end Points

end P3arsec.Streamcluster
