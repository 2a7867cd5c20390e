import P3arsec.Lib.Rounding

/-!
# Floating-point arithmetic

A value of a floating-point format is a number, an infinity, or not a number. An operation on
numbers gives the rounded exact result, or an infinity where that is too great; the operations on
infinities follow their signs. The two zeros are one value here, and a quotient by zero is one by
the positive zero. The values that are not negative have ranks in the order, so that a value cannot
fall forever: a half is smaller than its number, down to zero, and so is a difference where what is
subtracted is not small.
-/

namespace P3arsec.Lib

/-- A floating-point value. -/
inductive Value where
  /-- Not a number. -/
  | nan
  /-- The infinity below all numbers. -/
  | negInf
  /-- The infinity above all numbers. -/
  | posInf
  /-- A number. -/
  | num (x : ℚ)
  deriving DecidableEq

namespace Value

/-- The sign, which is zero for a value that is not a number. -/
def sign : Value → SignType
  | nan => 0
  | negInf => -1
  | posInf => 1
  | num x => SignType.sign x

/-- The infinity of a sign. -/
def ofSign : SignType → Value
  | .neg => negInf
  | .zero => nan
  | .pos => posInf

/-- The opposite value. -/
def neg : Value → Value
  | nan => nan
  | negInf => posInf
  | posInf => negInf
  | num x => num (-x)

/-- The comparison, which is false where one value is not a number. -/
def lt : Value → Value → Bool
  | num x, num y => x < y
  | negInf, num _ | negInf, posInf | num _, posInf => true
  | _, _ => false

instance : LT Value := ⟨fun x y => x.lt y = true⟩

instance : DecidableLT Value := fun x y => inferInstanceAs (Decidable (x.lt y = true))

/-- A value that is zero or above. -/
def Nonneg : Value → Prop
  | num x => 0 ≤ x
  | posInf => True
  | _ => False

variable {x y : ℚ} {v w : Value}

/-- Numbers are compared as such. -/
@[simp] theorem num_lt_num : num x < num y ↔ x < y := by
  show (decide (x < y)) = true ↔ x < y
  rw [decide_eq_true_eq]

/-- What is above a number is above the smaller ones. -/
theorem num_lt_of_le (ordered : y ≤ x) (below : num x < v) : num y < v := by
  cases v with
  | nan | negInf => exact absurd below Bool.false_ne_true
  | posInf => rfl
  | num z => exact num_lt_num.mpr (ordered.trans_lt (num_lt_num.mp below))

/-- What is below a number is below the greater ones. -/
theorem lt_num_of_le (ordered : x ≤ y) (below : v < num x) : v < num y := by
  cases v with
  | nan | posInf => exact absurd below Bool.false_ne_true
  | negInf => rfl
  | num z => exact num_lt_num.mpr ((num_lt_num.mp below).trans_le ordered)

/-- Every number is below the infinity. -/
@[simp] theorem num_lt_posInf : num x < posInf := rfl

/-- Nothing is above the infinity. -/
@[simp] theorem not_posInf_lt : ¬posInf < v := by
  cases v <;> exact Bool.false_ne_true

/-- Nothing is below a value that is not a number. -/
@[simp] theorem not_lt_nan : ¬v < nan := by
  cases v <;> exact Bool.false_ne_true

/-- Nothing is above a value that is not a number. -/
@[simp] theorem not_nan_lt : ¬nan < v := by
  cases v <;> exact Bool.false_ne_true

/-- No number is below the lower infinity. -/
@[simp] theorem not_num_lt_negInf : ¬num x < negInf := Bool.false_ne_true

/-- The lower infinity is not below itself. -/
@[simp] theorem not_negInf_lt : ¬negInf < negInf := Bool.false_ne_true

/-- Zero is not negative. -/
theorem nonneg_zero : (num 0).Nonneg := le_refl (0 : ℚ)

/-- A value that is not negative is zero or above. -/
theorem Nonneg.eq_or_lt (nonneg : v.Nonneg) : v = num 0 ∨ num 0 < v := by
  cases v with
  | nan | negInf => exact nonneg.elim
  | posInf => exact Or.inr num_lt_posInf
  | num x =>
    rcases (show 0 ≤ x from nonneg).eq_or_lt with zero | positive
    · exact Or.inl (congrArg num zero.symm)
    · exact Or.inr (num_lt_num.mpr positive)

/-- Nothing is below itself. -/
theorem not_lt_self (v : Value) : ¬v < v := by
  cases v with
  | nan => exact not_lt_nan
  | negInf => exact not_negInf_lt
  | posInf => exact not_posInf_lt
  | num x => exact fun below => lt_irrefl x (num_lt_num.mp below)

/-- The comparison is transitive where it starts at a value that is not negative. -/
theorem Nonneg.lt_trans {u : Value} (nonneg : v.Nonneg) (first : v < w) (second : w < u) :
    v < u := by
  cases v with
  | nan | negInf => exact nonneg.elim
  | posInf => exact absurd first not_posInf_lt
  | num x =>
    cases w with
    | nan => exact absurd second not_nan_lt
    | negInf => exact absurd first not_num_lt_negInf
    | posInf => exact absurd second not_posInf_lt
    | num y => exact num_lt_of_le (num_lt_num.mp first).le second

/-- A value that is not below a positive one is positive. -/
theorem Nonneg.pos_of_not_lt (nonneg : v.Nonneg) (least : ¬v < w) (positive : num 0 < w) :
    num 0 < v := by
  rcases nonneg.eq_or_lt with rfl | above
  · exact absurd positive least
  · exact above

/-- The opposite of a value below zero is not negative. -/
theorem nonneg_neg (below : v < num 0) : v.neg.Nonneg := by
  cases v with
  | nan => exact absurd below not_nan_lt
  | negInf => trivial
  | posInf => exact absurd below not_posInf_lt
  | num x => exact neg_nonneg.mpr (num_lt_num.mp below).le

end Value

namespace Format

open Value

variable (format : Format)

/-- The value of an exact result. -/
def ofRat (x : ℚ) : Value :=
  if format.nearest |x| < format.bound then
    num (if x < 0 then -format.nearest |x| else format.nearest |x|)
  else if x < 0 then negInf else posInf

/-- A value of another format is converted. -/
def convert : Value → Value
  | num x => format.ofRat x
  | v => v

/-- The sum, which is `nan` for opposite infinities. -/
def sum : Value → Value → Value
  | num x, num y => format.ofRat (x + y)
  | nan, _ | _, nan | posInf, negInf | negInf, posInf => nan
  | posInf, _ | _, posInf => posInf
  | negInf, _ | _, negInf => negInf

/-- The difference. -/
def sub (v w : Value) : Value := format.sum v w.neg

/-- The product, which is `nan` for an infinity and zero. -/
def mul : Value → Value → Value
  | num x, num y => format.ofRat (x * y)
  | v, w => ofSign (v.sign * w.sign)

/-- The quotient, which is `nan` for two zeros or two infinities. -/
def div : Value → Value → Value
  | num x, num y => if y = 0 then ofSign (SignType.sign x) else format.ofRat (x / y)
  | nan, _ | _, nan => nan
  | num _, _ => num 0
  | v, num y => if y < 0 then v.neg else v
  | _, _ => nan

/-- The values of a format. -/
def Holds : Value → Prop
  | num x => format.Has x
  | _ => True

/-- The place of a value among those that are not negative. -/
def rank : Value → Nat
  | num x => ⌊x / 2 ^ format.least⌋₊
  | posInf => ⌊format.bound / 2 ^ format.least⌋₊
  | _ => 0

/-- The place of a number that is not negative, from one on. -/
def worth : Value → Nat
  | num x => if 0 ≤ x then format.rank (num x) + 1 else 0
  | _ => 0

variable {format} {x y : ℚ} {v w : Value}

/-- The opposite of a number of the format. -/
theorem Has.neg (has : format.Has x) : format.Has (-x) := by
  obtain ⟨m, e, small, low, high, rfl⟩ := has
  exact ⟨-m, e, by rwa [abs_neg], low, high, by push_cast; ring⟩

/-- Zero is a number of the format. -/
theorem has_zero : format.Has 0 :=
  ⟨0, format.least, by simp, le_rfl, format.ordered, by simp⟩

/-- Zero is a value of the format. -/
theorem holds_zero : format.Holds (num 0) := has_zero

/-- The value of a result that is not negative. -/
theorem ofRat_of_nonneg (nonneg : 0 ≤ x) : format.ofRat x =
    if format.nearest x < format.bound then num (format.nearest x) else posInf := by
  rw [ofRat, abs_of_nonneg nonneg, if_neg nonneg.not_gt, if_neg nonneg.not_gt]

/-- It is not negative. -/
theorem nonneg_ofRat (nonneg : 0 ≤ x) : (format.ofRat x).Nonneg := by
  rw [ofRat_of_nonneg nonneg]
  split
  · exact nearest_nonneg nonneg
  · trivial

/-- A result below zero does not become greater. -/
theorem not_pos_ofRat (nonpos : x ≤ 0) : ¬num 0 < format.ofRat x := by
  rcases nonpos.eq_or_lt with rfl | below
  · rw [ofRat_of_nonneg le_rfl, nearest_zero]
    split
    · rw [num_lt_num]
      exact lt_irrefl 0
    · rename_i large
      exact absurd (two_zpow_pos _) large
  · rw [ofRat, if_pos below, if_pos below]
    split
    · rw [num_lt_num]
      exact not_lt.mpr (neg_nonpos.mpr (nearest_nonneg (abs_nonneg x)))
    · exact Bool.false_ne_true

/-- The numbers of the format are kept. -/
theorem Has.ofRat (has : format.Has x) : format.ofRat x = num x := by
  unfold Format.ofRat
  rcases lt_or_ge x 0 with below | above
  · have opposite := has.neg
    rw [abs_of_neg below, opposite.nearest (neg_nonneg.mpr below.le), if_pos opposite.lt_bound,
      if_pos below, neg_neg]
  · rw [abs_of_nonneg above, has.nearest above, if_pos has.lt_bound, if_neg above.not_gt]

/-- Zero is kept. -/
@[simp] theorem ofRat_zero : format.ofRat 0 = num 0 := has_zero.ofRat

/-- Every result is a value of the format. -/
theorem holds_ofRat (x : ℚ) : format.Holds (format.ofRat x) := by
  unfold Format.ofRat
  split
  · rename_i small
    have has : format.Has (format.nearest |x|) := by
      rcases (abs_nonneg x).eq_or_lt with zero | positive
      · rw [← zero, nearest_zero]
        exact has_zero
      · exact has_nearest positive small
    split
    · exact has.neg
    · exact has
  · split <;> trivial

/-- A sum is a value of the format. -/
theorem holds_sum : format.Holds (format.sum v w) := by
  cases v <;> cases w <;> first | trivial | exact holds_ofRat _

/-- A difference is a value of the format. -/
theorem holds_sub : format.Holds (format.sub v w) := holds_sum

/-- The quotient of numbers. -/
theorem num_div_num (some : y ≠ 0) : format.div (num x) (num y) = format.ofRat (x / y) :=
  if_neg some

/-- The quotient of a number by zero. -/
theorem num_div_zero : format.div (num x) (num 0) = ofSign (SignType.sign x) := by
  rw [div, if_pos rfl]

/-- A value of the format that is divided by a number is one. -/
theorem holds_div (some : y ≠ 0) : format.Holds (format.div v (num y)) := by
  cases v with
  | nan => trivial
  | negInf | posInf =>
    unfold div
    dsimp only
    split <;> trivial
  | num x =>
    rw [num_div_num some]
    exact holds_ofRat _

/-! ### Values that are not negative -/

/-- A sum is not negative. -/
theorem nonneg_sum (first : v.Nonneg) (second : w.Nonneg) : (format.sum v w).Nonneg := by
  cases v <;> cases w <;> first | exact first.elim | exact second.elim | trivial |
    exact nonneg_ofRat (add_nonneg first second)

/-- A half is not negative. -/
theorem nonneg_half (nonneg : v.Nonneg) : (format.div v (num 2)).Nonneg := by
  cases v with
  | nan | negInf => exact nonneg.elim
  | posInf =>
    show (if (2 : ℚ) < 0 then negInf else posInf).Nonneg
    rw [if_neg (by norm_num)]
    trivial
  | num x =>
    rw [num_div_num two_ne_zero]
    exact nonneg_ofRat (div_nonneg nonneg two_pos.le)

/-- A square is not negative. -/
theorem nonneg_mul_self (some : v ≠ nan) : (format.mul v v).Nonneg := by
  cases v with
  | nan => exact absurd rfl some
  | negInf | posInf => trivial
  | num x => exact nonneg_ofRat (mul_self_nonneg x)

/-- A difference of numbers is not `nan`. -/
theorem sub_ne_nan : format.sub (num x) (num y) ≠ nan := by
  show format.ofRat (x + -y) ≠ nan
  unfold Format.ofRat
  split_ifs <;> exact Value.noConfusion

/-- A number and itself have no difference. -/
@[simp] theorem sub_self : format.sub (num x) (num x) = num 0 := by
  show format.ofRat (x + -x) = num 0
  rw [add_neg_cancel, ofRat_zero]

/-- The opposite exact result has the opposite value. -/
theorem ofRat_neg (x : ℚ) : format.ofRat (-x) = (format.ofRat x).neg := by
  unfold Format.ofRat
  rw [abs_neg]
  rcases lt_trichotomy x 0 with below | rfl | above
  · have opposite : ¬-x < 0 := (neg_pos.mpr below).not_gt
    simp only [if_pos below, if_neg opposite]
    split
    · exact congrArg num (neg_neg _).symm
    · rfl
  · have zero : ¬(0 : ℚ) < 0 := lt_irrefl 0
    rw [neg_zero, abs_zero, nearest_zero, if_neg zero, if_neg zero,
      if_pos (show (0 : ℚ) < format.bound from two_zpow_pos _)]
    exact congrArg num neg_zero.symm
  · simp only [if_pos (neg_neg_of_pos above), if_neg above.not_gt]
    split <;> rfl

/-- The square of an opposite value. -/
theorem mul_neg_neg (v : Value) : format.mul v.neg v.neg = format.mul v v := by
  cases v with
  | nan | negInf | posInf => rfl
  | num x => exact congrArg format.ofRat (neg_mul_neg x x)

/-- The square of a difference is the same both ways. -/
theorem mul_sub_comm : format.mul (format.sub (num x) (num y)) (format.sub (num x) (num y)) =
    format.mul (format.sub (num y) (num x)) (format.sub (num y) (num x)) := by
  have opposite : format.sub (num x) (num y) = (format.sub (num y) (num x)).neg := by
    show format.ofRat (x + -y) = (format.ofRat (y + -x)).neg
    rw [← ofRat_neg]
    congr 1
    ring
  rw [opposite, mul_neg_neg]

/-- Zero and zero are zero. -/
@[simp] theorem zero_sum_zero : format.sum (num 0) (num 0) = num 0 := by
  show format.ofRat (0 + 0) = num 0
  rw [add_zero, ofRat_zero]

/-- A product with a positive number is not negative. -/
theorem nonneg_mul (first : v.Nonneg) (positive : 0 < x) : (format.mul v (num x)).Nonneg := by
  cases v with
  | nan | negInf => exact first.elim
  | posInf =>
    show (ofSign (1 * SignType.sign x)).Nonneg
    rw [sign_pos positive]
    trivial
  | num y => exact nonneg_ofRat (mul_nonneg first positive.le)

/-- A product with zero is zero. -/
@[simp] theorem zero_mul : format.mul (num 0) (num x) = num 0 := by
  show format.ofRat (0 * x) = num 0
  rw [MulZeroClass.zero_mul, ofRat_zero]

/-- A quotient by zero is the infinity. -/
theorem div_zero (positive : num 0 < v) : format.div v (num 0) = posInf := by
  cases v with
  | nan => exact absurd positive not_lt_nan
  | negInf => exact absurd positive not_num_lt_negInf
  | posInf => rfl
  | num x =>
    rw [num_div_zero, sign_pos (num_lt_num.mp positive)]
    rfl

/-- Zero by zero is not a number. -/
@[simp] theorem zero_div_zero : format.div (num 0) (num 0) = nan := by
  rw [num_div_zero, sign_zero]
  rfl

/-! ### Values that fall -/

/-- A number of the format is as many times the least one as its rank says. -/
theorem Has.rank (has : format.Has x) (nonneg : 0 ≤ x) :
    (format.rank (num x) : ℚ) = x / 2 ^ format.least := by
  obtain ⟨m, e, -, low, -, rfl⟩ := has
  have bits : 0 ≤ m := by
    by_contra below
    have negative : (m : ℚ) < 0 := by exact_mod_cast not_le.mp below
    exact absurd nonneg (not_le.mpr (mul_neg_of_neg_of_pos negative (two_zpow_pos e)))
  have whole : (m * 2 ^ e : ℚ) / 2 ^ format.least =
      ((m * 2 ^ (e - format.least).toNat).toNat : ℚ) := by
    rw [mul_div_assoc, two_zpow_div low]
    have cast : (((m * 2 ^ (e - format.least).toNat).toNat : ℤ) : ℚ) =
        ((m * 2 ^ (e - format.least).toNat : ℤ) : ℚ) := by
      rw [Int.toNat_of_nonneg (by positivity)]
    rw [← Int.cast_natCast, cast]
    push_cast
    rfl
  show ((⌊(m * 2 ^ e : ℚ) / 2 ^ format.least⌋₊ : Nat) : ℚ) = _
  rw [whole, Nat.floor_natCast]

/-- A smaller value has a smaller rank. -/
theorem rank_lt (first : format.Holds v) (nonneg : v.Nonneg) (second : format.Holds w)
    (below : v < w) : format.rank v < format.rank w := by
  have scale := two_zpow_pos format.least
  cases v with
  | nan | negInf => exact nonneg.elim
  | posInf => exact absurd below not_posInf_lt
  | num x =>
    have place := Has.rank first nonneg
    cases w with
    | nan => exact absurd below not_lt_nan
    | negInf => exact absurd below not_num_lt_negInf
    | posInf =>
      have digits : format.least ≤ format.precision + format.greatest := by
        have ordered := format.ordered
        omega
      have top : (format.rank posInf : ℚ) = format.bound / 2 ^ format.least := by
        have whole : format.bound / 2 ^ format.least =
            ((2 ^ (format.precision + format.greatest - format.least).toNat : Nat) : ℚ) := by
          rw [bound, two_zpow_div digits]
          push_cast
          rfl
        show ((⌊format.bound / 2 ^ format.least⌋₊ : Nat) : ℚ) = _
        rw [whole, Nat.floor_natCast]
      have cast : (format.rank (num x) : ℚ) < format.rank posInf := by
        rw [place, top]
        exact div_lt_div_of_pos_right (Has.lt_bound first) scale
      exact_mod_cast cast
    | num y =>
      have less := num_lt_num.mp below
      have place' := Has.rank second ((show 0 ≤ x from nonneg).trans less.le)
      have cast : (format.rank (num x) : ℚ) < format.rank (num y) := by
        rw [place, place']
        exact div_lt_div_of_pos_right less scale
      exact_mod_cast cast

/-- The value of a result that is not above a number of the format is a number. -/
theorem exists_ofRat (nonneg : 0 ≤ x) (ordered : x ≤ y) (has : format.Has y) :
    ∃ z, format.ofRat x = num z ∧ 0 ≤ z ∧ z ≤ y := by
  have most : format.nearest x ≤ y :=
    has.nearest (nonneg.trans ordered) ▸ nearest_mono nonneg ordered
  exact ⟨format.nearest x, by rw [ofRat_of_nonneg nonneg, if_pos (most.trans_lt has.lt_bound)],
    nearest_nonneg nonneg, most⟩

/-- It is not below the numbers of the format that are not above the exact one. -/
theorem le_of_ofRat (has : format.Has y) (nonneg : 0 ≤ y) (ordered : y ≤ x) {z : ℚ}
    (value : format.ofRat x = num z) : y ≤ z := by
  rw [ofRat_of_nonneg (nonneg.trans ordered)] at value
  split at value
  · rw [← Value.num.inj value, ← has.nearest nonneg]
    exact nearest_mono nonneg ordered
  · exact Value.noConfusion value

/-- A result is not above a number of the format that is not below the exact one. -/
theorem not_lt_ofRat (nonneg : 0 ≤ x) (ordered : x ≤ y) (has : format.Has y) :
    ¬num y < format.ofRat x := by
  obtain ⟨z, value, -, most⟩ := exists_ofRat nonneg ordered has
  rw [value, num_lt_num]
  exact not_lt.mpr most

/-- What is below a share of a value is below the value. -/
theorem lt_of_lt_mul {u : Value} {share : ℚ} (positive : 0 < share) (part : share ≤ 1)
    (nonneg : v.Nonneg) (holds : format.Holds v) (below : u < format.mul (num share) v) :
    u < v := by
  cases v with
  | nan | negInf => exact nonneg.elim
  | posInf =>
    have top : format.mul (num share) posInf = posInf := by
      show ofSign (SignType.sign share * 1) = posInf
      rw [sign_pos positive]
      rfl
    rwa [top] at below
  | num x =>
    have low : 0 ≤ x := nonneg
    have less : share * x ≤ x := mul_le_of_le_one_left low part
    obtain ⟨z, value, -, most⟩ := exists_ofRat (mul_nonneg positive.le low) less holds
    have product : format.mul (num share) (num x) = num z := value
    rw [product] at below
    exact lt_num_of_le most below

/-- A difference that is not negative is one from a positive number, unless both numbers are
zero. -/
theorem pos_of_nonneg_sub (first : format.Has x) (second : format.Has y) (nonneg : 0 ≤ y)
    {z : ℚ} (difference : format.sub (num x) (num y) = num z) (above : 0 ≤ z)
    (some : ¬(x = 0 ∧ y = 0)) : 0 < x := by
  by_contra none
  have low : x ≤ 0 := not_lt.mp none
  have below : x + -y < 0 := by
    rcases low.lt_or_eq with negative | zero
    · linarith
    · have positive : 0 < y := lt_of_le_of_ne nonneg fun same => some ⟨zero, same.symm⟩
      linarith
  have one : format.Has (2 ^ format.least) :=
    ⟨1, format.least, by
      rw [abs_one]
      exact one_lt_pow₀ one_lt_two format.precision_pos.ne', le_rfl, format.ordered, by simp⟩
  have far : 2 ^ format.least ≤ |x + -y| := by
    rw [abs_of_neg below]
    rcases low.lt_or_eq with negative | zero
    · have := first.neg.least_le (neg_pos.mpr negative)
      linarith
    · have positive : 0 < y := by linarith
      have := second.least_le positive
      linarith
  have scale := two_zpow_pos format.least
  have rounded : 0 < format.nearest |x + -y| := by
    refine scale.trans_le ?_
    rw [← one.nearest scale.le]
    exact nearest_mono scale.le far
  have value : format.ofRat (x + -y) = num z := difference
  unfold ofRat at value
  rw [if_pos below, if_pos below] at value
  split at value
  · have same : -format.nearest |x + -y| = z := Value.num.inj value
    linarith
  · exact Value.noConfusion value

/-- A number falls when something is subtracted that is not a small share of the rest. -/
theorem sub_lt_of_passes (first : format.Has x) (positive : 0 < x) (second : format.Has y)
    (nonneg : 0 ≤ y) {z share : ℚ} (above : 0 ≤ z)
    (unit : format.Has (2 ^ (1 - (format.precision : ℤ))))
    (great : 2 ^ (1 - (format.precision : ℤ)) ≤ share)
    (difference : format.sub (num x) (num y) = num z)
    (passes : num share < format.div (num y) (num z)) : z < x := by
  rcases above.eq_or_lt with rfl | more
  · exact positive
  have scale := two_zpow_pos (1 - (format.precision : ℤ))
  rw [num_div_num more.ne'] at passes
  have enough : z * 2 ^ (1 - (format.precision : ℤ)) ≤ y := by
    by_contra small
    refine not_lt_ofRat (div_nonneg nonneg more.le) ?_ unit (num_lt_of_le great passes)
    rw [div_le_iff₀ more, mul_comm]
    exact (not_le.mp small).le
  have some : 0 < y := (mul_pos more scale).trans_le enough
  have exact_ : format.ofRat (x - y) = num z := by
    rw [sub_eq_add_neg]
    exact difference
  have apart : 0 ≤ x - y := by
    by_contra below
    have none : ¬num 0 < format.ofRat (x - y) := not_pos_ofRat (not_le.mp below).le
    rw [exact_] at none
    exact none (num_lt_num.mpr more)
  have most : format.nearest (x - y) ≤ x := calc
    format.nearest (x - y) ≤ format.nearest x := nearest_mono apart (sub_le_self x nonneg)
    _ = x := first.nearest positive.le
  rw [ofRat_of_nonneg apart, if_pos (most.trans_lt first.lt_bound)] at exact_
  have rounded : format.nearest (x - y) = z := Value.num.inj exact_
  by_contra large
  have same : z = x := le_antisymm (rounded ▸ most) (not_lt.mp large)
  have less := first.nearest_sub_lt positive second some (same ▸ enough) apart
  rw [rounded, same] at less
  exact lt_irrefl x less

/-- A value from which another one is subtracted falls, where that one is a share of the rest that
is not small. -/
theorem worth_sub_lt (first : format.Holds v) (second : format.Holds w)
    (nonneg : w ≠ nan → w.Nonneg) {share : ℚ} (unit : format.Has (2 ^ (1 - (format.precision : ℤ))))
    (great : 2 ^ (1 - (format.precision : ℤ)) ≤ share)
    (passes : num share < format.div w (format.sub v w)) :
    format.worth (format.sub v w) < format.worth v := by
  have positive : 0 < share := (two_zpow_pos _).trans_le great
  -- only numbers can pass the test
  cases w with
  | nan => exact absurd passes not_lt_nan
  | negInf => exact (nonneg Value.noConfusion).elim
  | posInf => cases v <;> exact absurd passes (by simp [sub, sum, Value.neg, div])
  | num c =>
    have low : 0 ≤ c := nonneg Value.noConfusion
    cases v with
    | nan => exact absurd passes not_lt_nan
    | negInf | posInf =>
      have below : num share < num 0 := passes
      exact absurd (num_lt_num.mp below) positive.not_gt
    | num x =>
      cases difference : format.sub (num x) (num c) with
      | nan => exact absurd difference sub_ne_nan
      | negInf | posInf =>
        rw [difference] at passes
        have below : num share < num 0 := passes
        exact absurd (num_lt_num.mp below) positive.not_gt
      | num z =>
        rw [difference] at passes
        rcases lt_or_ge z 0 with negative | above
        · rw [num_div_num negative.ne] at passes
          exact absurd (num_lt_of_le positive.le passes)
            (not_pos_ofRat (div_nonpos_of_nonneg_of_nonpos low negative.le))
        have some : ¬(x = 0 ∧ c = 0) := by
          rintro ⟨rfl, rfl⟩
          rw [sub_self] at difference
          rw [← difference, zero_div_zero] at passes
          exact not_lt_nan passes
        have has : format.Holds (num z) := difference ▸ holds_sub
        have rises := pos_of_nonneg_sub first second low difference above some
        have less := sub_lt_of_passes first rises second low above unit great difference passes
        unfold worth
        dsimp only
        rw [if_pos above, if_pos rises.le]
        exact Nat.succ_lt_succ (rank_lt has above first (num_lt_num.mpr less))

/-- The half of a positive number is smaller. -/
theorem half_lt (has : format.Has x) (positive : 0 < x) (precise : 2 ≤ format.precision) :
    ∃ y, format.div (format.sum (num x) (num 0)) (num 2) = num y ∧ 0 ≤ y ∧ y < x := by
  have less := has.nearest_half_lt positive precise
  have nonneg : 0 ≤ x / 2 := by linarith
  refine ⟨format.nearest (x / 2), ?_, nearest_nonneg nonneg, less⟩
  show format.div (format.ofRat (x + 0)) (num 2) = _
  rw [add_zero, has.ofRat, num_div_num two_ne_zero, ofRat_of_nonneg nonneg,
    if_pos (less.trans has.lt_bound)]

/-- Zero is its own half. -/
theorem half_zero : format.div (format.sum (num 0) (num 0)) (num 2) = num 0 := by
  rw [zero_sum_zero, num_div_num two_ne_zero, zero_div, ofRat_zero]

end Format

/-- The numbers of the single precision are of the double precision. -/
theorem binary64_of_binary32 {x : ℚ} (has : binary32.Has x) : binary64.Has x := by
  obtain ⟨m, e, small, low, high, rfl⟩ := has
  exact ⟨m, e, small.trans (by decide), le_trans (by decide) low, high.trans (by decide), rfl⟩

/-- A value that is converted to the single precision is one of the double precision. -/
theorem binary64_convert (v : Value) : binary64.Holds (binary32.convert v) := by
  cases v with
  | nan | negInf | posInf => trivial
  | num x =>
    have holds : binary32.Holds (binary32.ofRat x) := Format.holds_ofRat x
    show binary64.Holds (binary32.ofRat x)
    cases value : binary32.ofRat x with
    | nan | negInf | posInf => trivial
    | num y =>
      rw [value] at holds
      exact binary64_of_binary32 holds

end P3arsec.Lib
