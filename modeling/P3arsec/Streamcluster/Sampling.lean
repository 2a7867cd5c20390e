import P3arsec.Lib.Rounding
import P3arsec.Streamcluster.Feasible

/-!
# The weights in the drawing of points

`selectfeasible_fast` is to draw points with a probability proportional to their weights. It adds
up the weights in an array of type `float`. Where every sum is a number of that type the points have
intervals of numbers as long as their weights. A sum that has to be rounded changes the interval of
its point, and from 2^24 points of weight one on the sums do not rise any more, so that the points
that follow are never drawn.
-/

namespace P3arsec.Streamcluster

open Lib

namespace Points

variable (points : Points ℚ)

/-- `accumweight`, an array of type `float`. -/
def accumFloat : Nat → WithTop ℚ
  | 0 => ((points.p 0).weight : ℚ)
  | i + 1 => binary32.add (accumFloat i) ((points.p (i + 1)).weight : ℚ)

/-- `totalweight`, of type `float`. -/
def totalFloat : WithTop ℚ := points.accumFloat (points.num - 1)

/-- The point that is selected for a number. -/
def selectFloat (w : WithTop ℚ) : Option Nat := selectPoint points.accumFloat points.num w

/-- The numbers below the total weight for which a point is selected. -/
def Drawn (r : Nat) : Set ℚ :=
  {w | 0 ≤ w ∧ (w : WithTop ℚ) < points.totalFloat ∧ points.selectFloat w = some r}

/-- The weights are positive numbers of type `float`. -/
def Single : Prop :=
  ∀ i < points.num, 0 < (points.p i).weight ∧ binary32.Has (points.p i).weight

variable {points}

/-- A sum is infinite or a number of type `float` that is not below the first weight. -/
theorem accumFloat_eq (single : points.Single) {i : Nat} (bound : i < points.num) :
    points.accumFloat i = ⊤ ∨
      ∃ x, points.accumFloat i = (x : ℚ) ∧ binary32.Has x ∧ 0 < x := by
  induction i with
  | zero =>
    obtain ⟨positive, has⟩ := single 0 bound
    exact Or.inr ⟨_, rfl, has, positive⟩
  | succ i ih =>
    obtain ⟨positive, -⟩ := single (i + 1) bound
    rcases ih (by omega) with top | ⟨x, sum, has, above⟩
    · exact Or.inl (by rw [accumFloat, top, Format.top_add])
    · have next : points.accumFloat (i + 1) =
          binary32.round (x + (points.p (i + 1)).weight) := by
        rw [accumFloat, sum, Format.add_coe]
      have rounded := binary32.round_eq (add_pos above positive)
      rcases rounded with top | ⟨y, same, has'⟩
      · exact Or.inl (next.trans top)
      · have rises := Format.le_add has above.le positive
        rw [Format.add_coe, same] at rises
        have least : x ≤ y := by exact_mod_cast rises
        exact Or.inr ⟨y, next.trans same, has', above.trans_le least⟩

/-- The sums rise. -/
theorem rises_accumFloat (single : points.Single) : Rises points.accumFloat points.num := by
  intro i bound
  rcases accumFloat_eq single (Nat.lt_of_succ_lt bound) with top | ⟨x, sum, has, above⟩
  · rw [accumFloat, top, Format.top_add]
  · rw [accumFloat, sum]
    exact Format.le_add has above.le (single (i + 1) bound).1

/-- The sum before a point. -/
def before (points : Points ℚ) (r : Nat) : WithTop ℚ :=
  if r = 0 then ((0 : ℚ) : WithTop ℚ) else points.accumFloat (r - 1)

/-- No sum is negative. -/
theorem before_nonneg (single : points.Single) {r : Nat} (bound : r < points.num) :
    ((0 : ℚ) : WithTop ℚ) ≤ points.before r := by
  unfold before
  split
  · exact le_rfl
  · rcases accumFloat_eq single (i := r - 1) (by omega) with top | ⟨x, sum, -, above⟩
    · rw [top]
      exact le_top
    · rw [sum]
      exact_mod_cast above.le

/-- A point is drawn for the numbers from the sum before it up to its sum. -/
theorem mem_drawn (single : points.Single) (range : points.num ≤ 2 ^ 30 + 1) {r : Nat}
    (bound : r < points.num) (w : ℚ) :
    w ∈ points.Drawn r ↔ points.before r ≤ (w : WithTop ℚ) ∧
      (w : WithTop ℚ) < points.accumFloat r := by
  have rises := rises_accumFloat single
  constructor
  · rintro ⟨nonneg, below, selected⟩
    obtain ⟨low, high⟩ := (rises.selectPoint_iff range bound below).mp selected
    refine ⟨?_, high⟩
    unfold before
    split
    · exact_mod_cast nonneg
    · rename_i later
      exact low.resolve_left later
  · rintro ⟨low, high⟩
    have below : (w : WithTop ℚ) < points.totalFloat :=
      high.trans_le (rises.mono (by omega) (by omega))
    refine ⟨?_, below, (rises.selectPoint_iff range bound below).mpr ⟨?_, high⟩⟩
    · exact_mod_cast (before_nonneg single bound).trans low
    · unfold before at low
      split at low
      · exact Or.inl ‹_›
      · exact Or.inr low

/-- The numbers of each point are an interval as long as a fixed part of its weight. -/
def Proportional (points : Points ℚ) : Prop :=
  ∃ scale : ℚ, ∀ r < points.num, ∃ low,
    points.Drawn r = Set.Ico low (low + scale * (points.p r).weight)

/-- An interval between two sums that has a length is between two finite ones. -/
theorem ends_of_ico {left right : WithTop ℚ} {low length : ℚ} (positive : 0 < length)
    (same : ∀ w : ℚ, left ≤ (w : WithTop ℚ) ∧ (w : WithTop ℚ) < right ↔
      low ≤ w ∧ w < low + length) :
    left = (low : ℚ) ∧ right = ((low + length : ℚ) : WithTop ℚ) := by
  obtain ⟨left_le, lt_right⟩ := (same low).mpr ⟨le_rfl, lt_add_of_pos_right low positive⟩
  lift left to ℚ using ne_top_of_le_ne_top WithTop.coe_ne_top left_le
  have starts : left = low := by
    refine le_antisymm (by exact_mod_cast left_le) (le_of_not_gt fun below => ?_)
    have inside := (same left).mp ⟨le_rfl, lt_of_le_of_lt left_le lt_right⟩
    exact absurd inside.1 (not_le.mpr below)
  have after : ¬((low + length : ℚ) : WithTop ℚ) < right := by
    intro inside
    have reaches : left ≤ low + length := by linarith
    have bound := ((same (low + length)).mp ⟨by exact_mod_cast reaches, inside⟩).2
    exact lt_irrefl _ bound
  lift right to ℚ using ne_top_of_le_ne_top WithTop.coe_ne_top (not_lt.mp after)
  have ends : right = low + length := by
    refine le_antisymm (by exact_mod_cast not_lt.mp after) (le_of_not_gt fun below => ?_)
    have first : low < right := by exact_mod_cast lt_right
    have inside := (same right).mpr ⟨first.le, below⟩
    exact lt_irrefl _ inside.2
  exact ⟨by rw [starts], by rw [ends]⟩

/-- Where the points are drawn in proportion to their weights, the sums are exact. -/
theorem exact_of_proportional (single : points.Single) (range : points.num ≤ 2 ^ 30 + 1)
    (proportional : points.Proportional) {r : Nat} (bound : r < points.num) :
    points.accumFloat r = (points.accumweight r : ℚ) := by
  obtain ⟨scale, intervals⟩ := proportional
  have drawn : ∀ {r} (bound : r < points.num), ∃ low, ∀ w : ℚ,
      points.before r ≤ (w : WithTop ℚ) ∧ (w : WithTop ℚ) < points.accumFloat r ↔
        low ≤ w ∧ w < low + scale * (points.p r).weight := by
    intro r bound
    obtain ⟨low, interval⟩ := intervals r bound
    refine ⟨low, fun w => ?_⟩
    rw [← mem_drawn single range bound, interval, Set.mem_Ico]
  -- the first point has its whole weight
  have one : scale = 1 := by
    obtain ⟨low, interval⟩ := drawn (r := 0) (by omega)
    have weight := (single 0 (by omega)).1
    have start : points.before 0 = ((0 : ℚ) : WithTop ℚ) := rfl
    have sum : points.accumFloat 0 = ((points.p 0).weight : ℚ) := rfl
    rw [start, sum] at interval
    have inside := (interval 0).mp ⟨le_rfl, by exact_mod_cast weight⟩
    have positive : 0 < scale * (points.p 0).weight := by linarith [inside.1, inside.2]
    obtain ⟨first, last⟩ := ends_of_ico positive interval
    have low_eq : (0 : ℚ) = low := by exact_mod_cast first
    have whole : (points.p 0).weight = low + scale * (points.p 0).weight := by
      exact_mod_cast last
    rw [← low_eq, zero_add] at whole
    exact (mul_eq_right₀ weight.ne').mp whole.symm
  induction r with
  | zero => rfl
  | succ r ih =>
    obtain ⟨low, interval⟩ := drawn bound
    rw [one, one_mul] at interval
    obtain ⟨first, last⟩ := ends_of_ico (single (r + 1) bound).1 interval
    have before : points.accumFloat r = (low : ℚ) := first
    have low_eq : points.accumweight r = low := by
      exact_mod_cast (ih (by omega)).symm.trans before
    rw [last, ← low_eq]
    rfl

/-- Where no sum has to be rounded, the sums are exact. -/
theorem exact_of_has (single : points.Single)
    (has : ∀ r < points.num, binary32.Has (points.accumweight r)) {r : Nat}
    (bound : r < points.num) : points.accumFloat r = (points.accumweight r : ℚ) := by
  have weighted : points.Weighted := fun i inside => (single i inside).1
  induction r with
  | zero => rfl
  | succ r ih =>
    rw [accumFloat, ih (by omega), Format.add_coe]
    exact (has (r + 1) bound).round (accumweight_nonneg weighted bound)

/-- Where the sums are exact, the points are drawn in proportion to their weights. -/
theorem proportional_of_exact (single : points.Single) (range : points.num ≤ 2 ^ 30 + 1)
    (exact : ∀ r < points.num, points.accumFloat r = (points.accumweight r : ℚ)) :
    points.Proportional := by
  refine ⟨1, fun r bound => ⟨points.accumweight r - (points.p r).weight, ?_⟩⟩
  have start : points.before r =
      ((points.accumweight r - (points.p r).weight : ℚ) : WithTop ℚ) := by
    cases r with
    | zero => simp [before, accumweight]
    | succ r =>
      have sum := exact r (by omega)
      simpa [before, accumweight] using sum
  ext w
  rw [mem_drawn single range bound, start, exact r bound, Set.mem_Ico, one_mul, sub_add_cancel]
  norm_cast

/-- The search selects a point as promised for every number up to the total weight, and each point
for an interval of numbers in proportion to its weight, exactly when there are at most 2^30+1 points
and no sum of their weights has to be rounded. -/
theorem selectFloat_correct (single : points.Single) (nonempty : 0 < points.num) :
    (∀ w, 0 ≤ w → w ≤ points.totalFloat → ∃ r, points.selectFloat w = some r ∧
        Selects points.accumFloat points.num w r) ∧ points.Proportional ↔
      points.num ≤ 2 ^ 30 + 1 ∧ ∀ r < points.num, binary32.Has (points.accumweight r) := by
  constructor
  · rintro ⟨correct, proportional⟩
    have range : points.num ≤ 2 ^ 30 + 1 := by
      by_contra many
      have nonneg : 0 ≤ points.totalFloat := by
        rcases accumFloat_eq single (i := points.num - 1) (by omega) with top | ⟨x, sum, -, above⟩
        · rw [totalFloat, top]
          exact le_top
        · rw [totalFloat, sum]
          exact_mod_cast above.le
      obtain ⟨r, found, -⟩ := correct points.totalFloat nonneg le_rfl
      have missing : points.selectFloat points.totalFloat = none :=
        (rises_accumFloat single).selectPoint_over (by omega)
      rw [missing] at found
      exact nomatch found
    refine ⟨range, fun r bound => ?_⟩
    have exact := exact_of_proportional single range proportional bound
    rcases accumFloat_eq single bound with top | ⟨x, sum, has, -⟩
    · exact absurd (top.symm.trans exact) (WithTop.top_ne_coe)
    · have same : x = points.accumweight r := by exact_mod_cast sum.symm.trans exact
      exact same ▸ has
  · rintro ⟨range, has⟩
    exact ⟨fun w _ high => selectPoint_spec nonempty range high,
      proportional_of_exact single range fun r bound => exact_of_has single has bound⟩

/-- Points of weight 1. -/
def unit (num : Nat) : Points ℚ := ⟨num, 0, fun _ => ⟨1, fun _ => 0, 0, 0⟩⟩

/-- The weights of such points are numbers of type `float`. -/
theorem single_unit (num : Nat) : (unit num).Single :=
  fun _ _ => ⟨one_pos, by exact_mod_cast binary32_natCast (n := 1) (by decide)⟩

/-- Their sums are the numbers of points. -/
theorem accumweight_unit (num i : Nat) : (unit num).accumweight i = ((i + 1 : Nat) : ℚ) := by
  induction i with
  | zero => simp [accumweight, unit]
  | succ i ih =>
    rw [accumweight, ih]
    simp [unit]

/-- The search is correct for a million points of weight 1. -/
theorem selectFloat_correct_million :
    (∀ w, 0 ≤ w → w ≤ (unit 1000000).totalFloat → ∃ r, (unit 1000000).selectFloat w = some r ∧
      Selects (unit 1000000).accumFloat 1000000 w r) ∧ (unit 1000000).Proportional :=
  (selectFloat_correct (single_unit 1000000) (by decide)).mpr ⟨by decide, fun r bound => by
    rw [accumweight_unit]
    have small : r < 1000000 := bound
    exact binary32_natCast (by omega)⟩

/-- The last of 2^24+1 points of weight 1 is not drawn in proportion to its weight. -/
theorem selectFloat_correct_fails :
    (unit (2 ^ 24 + 1)).Single ∧ ¬(unit (2 ^ 24 + 1)).Proportional := by
  refine ⟨single_unit _, fun proportional => ?_⟩
  have last : 2 ^ 24 < (unit (2 ^ 24 + 1)).num := by decide
  have exact := exact_of_proportional (single_unit _) (by decide) proportional last
  rcases accumFloat_eq (single_unit _) last with top | ⟨x, sum, has, -⟩
  · exact absurd (top.symm.trans exact) (WithTop.top_ne_coe)
  · have same : x = (unit (2 ^ 24 + 1)).accumweight (2 ^ 24) := by
      exact_mod_cast sum.symm.trans exact
    rw [same, accumweight_unit] at has
    exact binary32_odd (by decide) (by decide) has

end Points

end P3arsec.Streamcluster
