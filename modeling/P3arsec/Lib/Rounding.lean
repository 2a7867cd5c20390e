import Mathlib

/-!
# Rounding to floating-point numbers

A binary floating-point format has numbers of some precision and a range of exponents. A rational
number that is not negative is rounded to a nearest number of the format, to an even one between
two, and to infinity when it is too great. The exponent of the result is that of the number, or the
least one, so numbers in different binades are rounded in different steps; the lemmas put the
powers of two between them. Rounding keeps the order and the numbers of the format.
-/

namespace P3arsec.Lib

/-- The nearest whole number, the even one between two. -/
def roundEven (x : ℚ) : ℤ :=
  if x - ⌊x⌋ < 1 / 2 then ⌊x⌋
  else if 1 / 2 < x - ⌊x⌋ then ⌊x⌋ + 1
  else if ⌊x⌋ % 2 = 0 then ⌊x⌋ else ⌊x⌋ + 1

/-- The whole numbers around a number are the candidates. -/
theorem roundEven_eq (x : ℚ) : roundEven x = ⌊x⌋ ∨ roundEven x = ⌊x⌋ + 1 := by
  unfold roundEven
  split_ifs <;> simp

/-- A whole number is kept. -/
@[simp] theorem roundEven_intCast (n : ℤ) : roundEven n = n := by
  simp [roundEven]

/-- Rounding to whole numbers keeps the order. -/
theorem roundEven_mono {x y : ℚ} (ordered : x ≤ y) : roundEven x ≤ roundEven y := by
  rcases (Int.floor_mono ordered).lt_or_eq with below | same
  · rcases roundEven_eq x with left | left <;> rcases roundEven_eq y with right | right <;> omega
  · unfold roundEven
    rw [← same]
    split_ifs <;> first | omega | linarith

/-- A floating-point format. -/
structure Format where
  /-- The number of bits of the significand. -/
  precision : Nat
  /-- The least exponent of the last bit. -/
  least : ℤ
  /-- The greatest exponent of the last bit. -/
  greatest : ℤ
  /-- There is a bit. -/
  precision_pos : 0 < precision
  /-- There is an exponent. -/
  ordered : least ≤ greatest

namespace Format

variable (format : Format)

/-- The finite numbers of a format. -/
def Has (x : ℚ) : Prop :=
  ∃ m e : ℤ, |m| < 2 ^ format.precision ∧ format.least ≤ e ∧ e ≤ format.greatest ∧ x = m * 2 ^ e

/-- The exponent of the last bit of a number that is rounded. -/
def exponent (x : ℚ) : ℤ := max format.least (Int.log 2 x + 1 - format.precision)

/-- The rounded number, where the exponents have no upper bound. -/
def nearest (x : ℚ) : ℚ := roundEven (x / 2 ^ format.exponent x) * 2 ^ format.exponent x

/-- Numbers from this one on are too great. -/
def bound : ℚ := 2 ^ (format.precision + format.greatest)

/-- The rounded number; there is none above infinity. -/
def round (x : ℚ) : WithTop ℚ := if format.nearest x < format.bound then format.nearest x else ⊤

/-- The sum of two numbers of the format, or of infinity. -/
def add (x y : WithTop ℚ) : WithTop ℚ :=
  match x, y with
  | (x : ℚ), (y : ℚ) => format.round (x + y)
  | _, _ => ⊤

variable {format} {x y : ℚ}

/-- A power of two is positive. -/
theorem two_zpow_pos (e : ℤ) : (0 : ℚ) < 2 ^ e := zpow_pos two_pos e

/-- A positive number is below the next power of two. -/
theorem lt_two_zpow_log (x : ℚ) : x < 2 ^ (Int.log 2 x + 1) := by
  exact_mod_cast Int.lt_zpow_succ_log_self (by norm_num : 1 < 2) x

/-- A positive number is not below its power of two. -/
theorem two_zpow_log_le (positive : 0 < x) : (2 : ℚ) ^ Int.log 2 x ≤ x := by
  exact_mod_cast Int.zpow_log_le_self (by norm_num : 1 < 2) positive

/-- A number below a power of two has a smaller logarithm. -/
theorem log_lt {e : ℤ} (positive : 0 < x) (below : x < 2 ^ e) : Int.log 2 x < e :=
  (Int.lt_zpow_iff_log_lt (by norm_num : 1 < 2) positive).mp (by exact_mod_cast below)

/-- The quotient of two powers of two. -/
theorem two_zpow_div {d e : ℤ} (ordered : e ≤ d) :
    (2 : ℚ) ^ d / 2 ^ e = ((2 ^ (d - e).toNat : ℤ) : ℚ) := by
  rw [← zpow_sub₀ two_ne_zero]
  have same : d - e = ((d - e).toNat : ℤ) := by omega
  conv_lhs => rw [same]
  rw [zpow_natCast]
  norm_cast

/-- A number of a finer exponent is kept. -/
theorem nearest_of_exponent {m e : ℤ} (finer : format.exponent (m * 2 ^ e) ≤ e) :
    format.nearest (m * 2 ^ e) = m * 2 ^ e := by
  have scaled : (m * 2 ^ e : ℚ) / 2 ^ format.exponent (m * 2 ^ e) =
      ((m * 2 ^ (e - format.exponent (m * 2 ^ e)).toNat : ℤ) : ℚ) := by
    rw [mul_div_assoc, two_zpow_div finer]
    push_cast
    rfl
  rw [nearest, scaled, roundEven_intCast, ← scaled,
    div_mul_cancel₀ _ (two_zpow_pos _).ne']

/-- A rounded number does not pass a power of two that its exponent divides. -/
theorem nearest_le_of_le {d : ℤ} (divides : format.exponent x ≤ d) (below : x ≤ 2 ^ d) :
    format.nearest x ≤ 2 ^ d := by
  have positive := two_zpow_pos (format.exponent x)
  have scaled : x / 2 ^ format.exponent x ≤ 2 ^ d / 2 ^ format.exponent x :=
    div_le_div_of_nonneg_right below positive.le
  rw [two_zpow_div divides] at scaled
  have rounded := roundEven_mono scaled
  rw [roundEven_intCast] at rounded
  have whole : (2 : ℚ) ^ d = ((2 ^ (d - format.exponent x).toNat : ℤ) : ℚ) *
      2 ^ format.exponent x := by
    rw [← two_zpow_div divides, div_mul_cancel₀ _ positive.ne']
  rw [nearest, whole]
  exact mul_le_mul_of_nonneg_right (by exact_mod_cast rounded) positive.le

/-- A rounded number stays above such a power of two. -/
theorem le_nearest_of_le {d : ℤ} (divides : format.exponent x ≤ d) (above : 2 ^ d ≤ x) :
    2 ^ d ≤ format.nearest x := by
  have positive := two_zpow_pos (format.exponent x)
  have scaled : 2 ^ d / 2 ^ format.exponent x ≤ x / 2 ^ format.exponent x :=
    div_le_div_of_nonneg_right above positive.le
  rw [two_zpow_div divides] at scaled
  have rounded := roundEven_mono scaled
  rw [roundEven_intCast] at rounded
  have whole : (2 : ℚ) ^ d = ((2 ^ (d - format.exponent x).toNat : ℤ) : ℚ) *
      2 ^ format.exponent x := by
    rw [← two_zpow_div divides, div_mul_cancel₀ _ positive.ne']
  rw [nearest, whole]
  exact mul_le_mul_of_nonneg_right (by exact_mod_cast rounded) positive.le

/-- A rounded number is not negative. -/
theorem nearest_nonneg (nonneg : 0 ≤ x) : 0 ≤ format.nearest x := by
  have scaled : ((0 : ℤ) : ℚ) ≤ x / 2 ^ format.exponent x := by
    rw [Int.cast_zero]
    exact div_nonneg nonneg (two_zpow_pos _).le
  have rounded := roundEven_mono scaled
  rw [roundEven_intCast] at rounded
  exact mul_nonneg (by exact_mod_cast rounded) (two_zpow_pos _).le

/-- Zero is kept. -/
@[simp] theorem nearest_zero : format.nearest 0 = 0 := by
  simp [nearest, roundEven]

/-- A smaller number is rounded in steps that are not greater. -/
theorem exponent_mono (positive : 0 < x) (ordered : x ≤ y) :
    format.exponent x ≤ format.exponent y := by
  have logs : Int.log 2 x ≤ Int.log 2 y := Int.log_mono_right positive ordered
  exact max_le_max_left _ (by omega)

/-- Rounding keeps the order. -/
theorem nearest_mono (nonneg : 0 ≤ x) (ordered : x ≤ y) :
    format.nearest x ≤ format.nearest y := by
  rcases nonneg.eq_or_lt with rfl | positive
  · rw [nearest_zero]
    exact nearest_nonneg ordered
  have positive' := positive.trans_le ordered
  have exponents : format.exponent x ≤ format.exponent y := exponent_mono positive ordered
  rcases exponents.lt_or_eq with apart | same
  · -- the power of two at the begin of the binade of the greater number is between them
    have normal : format.exponent y = Int.log 2 y + 1 - format.precision := by
      unfold exponent at apart ⊢
      omega
    have other : Int.log 2 x < Int.log 2 y := by
      unfold exponent at apart
      omega
    have least := format.precision_pos
    have below : x ≤ 2 ^ Int.log 2 y := (lt_two_zpow_log x).le.trans
      (zpow_le_zpow_right₀ one_le_two (by omega))
    exact (nearest_le_of_le (by omega) below).trans
      (le_nearest_of_le (by omega) (two_zpow_log_le positive'))
  · unfold nearest
    rw [same]
    refine mul_le_mul_of_nonneg_right ?_ (two_zpow_pos _).le
    exact_mod_cast roundEven_mono (div_le_div_of_nonneg_right ordered (two_zpow_pos _).le)

/-- The numbers of a format are below its bound. -/
theorem Has.lt_bound (has : format.Has x) : x < format.bound := by
  obtain ⟨m, e, small, -, high, rfl⟩ := has
  have digits : (m : ℚ) < 2 ^ format.precision := by exact_mod_cast (abs_lt.mp small).2
  calc
    (m * 2 ^ e : ℚ) < 2 ^ format.precision * 2 ^ e :=
      mul_lt_mul_of_pos_right digits (two_zpow_pos e)
    _ ≤ 2 ^ format.precision * 2 ^ format.greatest :=
      mul_le_mul_of_nonneg_left (zpow_le_zpow_right₀ one_le_two high) (by positivity)
    _ = format.bound := by rw [bound, zpow_add₀ two_ne_zero, zpow_natCast]

/-- The numbers of a format are kept. -/
theorem Has.nearest (has : format.Has x) (nonneg : 0 ≤ x) : format.nearest x = x := by
  rcases nonneg.eq_or_lt with rfl | positive
  · exact nearest_zero
  obtain ⟨m, e, small, low, -, rfl⟩ := has
  refine nearest_of_exponent (max_le low ?_)
  have digits : (m : ℚ) < 2 ^ format.precision := by exact_mod_cast (abs_lt.mp small).2
  have below : (m * 2 ^ e : ℚ) < 2 ^ ((format.precision : ℤ) + e) := by
    rw [zpow_add₀ two_ne_zero, zpow_natCast]
    exact mul_lt_mul_of_pos_right digits (two_zpow_pos e)
  have log := log_lt positive below
  omega

/-- A rounded number that is not too great is one of the format. -/
theorem has_nearest (positive : 0 < x) (small : format.nearest x < format.bound) :
    format.Has (format.nearest x) := by
  have scale := two_zpow_pos (format.exponent x)
  have least : format.least ≤ format.exponent x := le_max_left _ _
  -- the significand has one bit more at most, and then it is the power of two
  have digits : x / 2 ^ format.exponent x ≤ ((2 ^ format.precision : ℤ) : ℚ) := by
    rw [div_le_iff₀ scale]
    have high : Int.log 2 x + 1 ≤ format.precision + format.exponent x := by
      unfold exponent
      omega
    have whole : ((2 ^ format.precision : ℤ) : ℚ) * 2 ^ format.exponent x =
        2 ^ ((format.precision : ℤ) + format.exponent x) := by
      rw [zpow_add₀ two_ne_zero, zpow_natCast]
      norm_cast
    rw [whole]
    exact (lt_two_zpow_log x).le.trans (zpow_le_zpow_right₀ one_le_two high)
  have nonneg : 0 ≤ roundEven (x / 2 ^ format.exponent x) := by
    have zero : ((0 : ℤ) : ℚ) ≤ x / 2 ^ format.exponent x := by
      rw [Int.cast_zero]
      exact div_nonneg positive.le scale.le
    simpa only [roundEven_intCast] using roundEven_mono zero
  have most := roundEven_mono digits
  rw [roundEven_intCast] at most
  have value : format.nearest x =
      (roundEven (x / 2 ^ format.exponent x) : ℚ) * 2 ^ format.exponent x := rfl
  generalize roundEven (x / 2 ^ format.exponent x) = m at nonneg most value
  have precision := format.precision_pos
  rcases most.lt_or_eq with inside | full
  · refine ⟨m, format.exponent x, by rwa [abs_of_nonneg nonneg], least, ?_, value⟩
    by_contra above
    have normal : format.exponent x = Int.log 2 x + 1 - format.precision := by
      have ordered := format.ordered
      unfold exponent at above ⊢
      omega
    have large : (2 : ℚ) ^ Int.log 2 x ≤ format.nearest x :=
      le_nearest_of_le (by omega) (two_zpow_log_le positive)
    have reaches : format.bound ≤ 2 ^ Int.log 2 x :=
      zpow_le_zpow_right₀ one_le_two (by omega)
    exact absurd small (not_lt.mpr (reaches.trans large))
  · have carried : format.nearest x =
        ((2 ^ (format.precision - 1) : ℤ) : ℚ) * 2 ^ (format.exponent x + 1) := by
      rw [value, full, zpow_add₀ two_ne_zero, zpow_one]
      obtain ⟨p, same⟩ : ∃ p, format.precision = p + 1 := ⟨format.precision - 1, by omega⟩
      rw [same, Nat.add_sub_cancel]
      push_cast
      ring
    refine ⟨2 ^ (format.precision - 1), format.exponent x + 1, ?_, by omega, ?_, carried⟩
    · rw [abs_of_nonneg (by positivity)]
      exact pow_lt_pow_right₀ one_lt_two (by omega)
    · by_contra above
      have reaches : format.bound ≤ format.nearest x := by
        rw [value, full]
        push_cast
        rw [← zpow_natCast, ← zpow_add₀ two_ne_zero]
        exact zpow_le_zpow_right₀ one_le_two (by omega)
      exact absurd small (not_lt.mpr reaches)

/-- A positive number of the format has at least one bit. -/
theorem Has.least_le (has : format.Has x) (positive : 0 < x) : 2 ^ format.least ≤ x := by
  obtain ⟨m, e, -, low, -, rfl⟩ := has
  have bits : 0 < m := by
    by_contra none
    have below : (m : ℚ) ≤ 0 := by exact_mod_cast not_lt.mp none
    exact absurd positive (not_lt.mpr (mul_nonpos_of_nonpos_of_nonneg below (two_zpow_pos e).le))
  have one : (1 : ℚ) ≤ m := by exact_mod_cast bits
  calc
    (2 : ℚ) ^ format.least ≤ 2 ^ e := zpow_le_zpow_right₀ one_le_two low
    _ = 1 * 2 ^ e := (one_mul _).symm
    _ ≤ m * 2 ^ e := mul_le_mul_of_nonneg_right one (two_zpow_pos e).le

/-- Above the least binade a number is great against the step in which it is rounded. -/
theorem two_zpow_exponent_le (positive : 0 < x) (normal : format.least < format.exponent x) :
    2 ^ format.exponent x ≤ x * 2 ^ (1 - (format.precision : ℤ)) := by
  have exponent : format.exponent x = Int.log 2 x + (1 - (format.precision : ℤ)) := by
    unfold Format.exponent at normal ⊢
    omega
  rw [exponent, zpow_add₀ two_ne_zero]
  exact mul_le_mul_of_nonneg_right (two_zpow_log_le positive) (two_zpow_pos _).le

/-- A number that is a step below one of the format is rounded to a smaller one. -/
theorem Has.nearest_lt (has : format.Has x) (positive : 0 < x) (nonneg : 0 ≤ y)
    (below : y ≤ x - 2 ^ format.exponent x) : format.nearest y < x := by
  have scale := two_zpow_pos (format.exponent x)
  have whole : (roundEven (x / 2 ^ format.exponent x) : ℚ) * 2 ^ format.exponent x = x :=
    has.nearest positive.le
  generalize roundEven (x / 2 ^ format.exponent x) = m at whole
  have before : x - 2 ^ format.exponent x = ((m - 1 : ℤ) : ℚ) * 2 ^ format.exponent x := by
    push_cast
    rw [sub_mul, one_mul, whole]
  have kept : format.nearest (x - 2 ^ format.exponent x) = x - 2 ^ format.exponent x := by
    rcases (nonneg.trans below).eq_or_lt with zero | above
    · rw [← zero, nearest_zero]
    · have finer : format.exponent (x - 2 ^ format.exponent x) ≤ format.exponent x :=
        exponent_mono above (sub_le_self _ scale.le)
      rw [before] at finer ⊢
      exact nearest_of_exponent finer
  calc
    format.nearest y ≤ format.nearest (x - 2 ^ format.exponent x) := nearest_mono nonneg below
    _ = x - 2 ^ format.exponent x := kept
    _ < x := sub_lt_self _ scale

/-- A difference is rounded to a smaller number where what is subtracted is not small against the
number. -/
theorem Has.nearest_sub_lt (has : format.Has x) (positive : 0 < x) (other : format.Has y)
    (some : 0 < y) (great : x * 2 ^ (1 - (format.precision : ℤ)) ≤ y) (nonneg : 0 ≤ x - y) :
    format.nearest (x - y) < x := by
  have step : 2 ^ format.exponent x ≤ y := by
    rcases (le_max_left _ _ : format.least ≤ format.exponent x).lt_or_eq with normal | least
    · exact (two_zpow_exponent_le positive normal).trans great
    · have same : format.exponent x = format.least := least.symm
      rw [same]
      exact other.least_le some
  exact has.nearest_lt positive nonneg (by linarith)

/-- The half of a number is rounded to a smaller one. -/
theorem Has.nearest_half_lt (has : format.Has x) (positive : 0 < x)
    (precise : 2 ≤ format.precision) : format.nearest (x / 2) < x := by
  have scale := two_zpow_pos (format.exponent x)
  by_cases room : 2 ^ format.exponent x ≤ x / 2
  · exact has.nearest_lt positive (by linarith) (by linarith)
  -- only the least number is not two steps above zero, and its half is rounded to zero
  have least : format.exponent x = format.least := by
    by_contra other
    have normal : format.least < format.exponent x :=
      lt_of_le_of_ne (le_max_left _ _) (Ne.symm other)
    refine room ((two_zpow_exponent_le positive normal).trans ?_)
    rw [div_eq_mul_inv]
    refine mul_le_mul_of_nonneg_left ?_ positive.le
    rw [← zpow_neg_one]
    exact zpow_le_zpow_right₀ one_le_two (by omega)
  have whole : (roundEven (x / 2 ^ format.exponent x) : ℚ) * 2 ^ format.exponent x = x :=
    has.nearest positive.le
  generalize roundEven (x / 2 ^ format.exponent x) = m at whole
  have low : (0 : ℚ) < m := by
    by_contra none
    have := mul_nonpos_of_nonpos_of_nonneg (not_lt.mp none) scale.le
    linarith
  have high : (m : ℚ) < 2 := by
    by_contra large
    have := mul_le_mul_of_nonneg_right (not_lt.mp large) scale.le
    linarith
  have one : m = 1 := by
    have low' : 0 < m := by exact_mod_cast low
    have high' : m < 2 := by exact_mod_cast high
    omega
  rw [one, Int.cast_one, one_mul, least] at whole
  have half : x / 2 = 2 ^ (format.least - 1) := by
    rw [← whole, zpow_sub_one₀ two_ne_zero, div_eq_mul_inv]
  have binade : format.exponent (x / 2) = format.least := by
    have small : x / 2 < 2 ^ format.least := by linarith [two_zpow_pos format.least]
    have log := log_lt (by linarith) small
    have digits := format.precision_pos
    unfold exponent
    omega
  have middle : x / 2 / 2 ^ format.least = 1 / 2 := by
    rw [← whole]
    field_simp
  have floor : ⌊(1 / 2 : ℚ)⌋ = 0 := by norm_num
  have zero : roundEven (1 / 2) = 0 := by
    unfold roundEven
    rw [floor]
    norm_num
  rw [Format.nearest, binade, middle, zero, Int.cast_zero, zero_mul]
  exact positive

/-- A rounded number is infinite or one of the format. -/
theorem round_eq (positive : 0 < x) :
    format.round x = ⊤ ∨ ∃ y, format.round x = (y : ℚ) ∧ format.Has y := by
  unfold round
  split
  · rename_i small
    exact Or.inr ⟨_, rfl, has_nearest positive small⟩
  · exact Or.inl rfl

/-- Rounding keeps the order, infinity included. -/
theorem round_mono (nonneg : 0 ≤ x) (ordered : x ≤ y) : format.round x ≤ format.round y := by
  have mono : format.nearest x ≤ format.nearest y := nearest_mono nonneg ordered
  unfold round
  split_ifs with left right right
  · exact_mod_cast mono
  · exact le_top
  · exact absurd (mono.trans_lt right) left
  · exact le_rfl

/-- The numbers of a format are kept. -/
theorem Has.round (has : format.Has x) (nonneg : 0 ≤ x) : format.round x = (x : ℚ) := by
  unfold Format.round
  rw [has.nearest nonneg, if_pos has.lt_bound]

/-- The sum of two numbers of a format is the rounded one. -/
@[simp] theorem add_coe (x y : ℚ) : format.add (x : ℚ) (y : ℚ) = format.round (x + y) := rfl

/-- Nothing brings a sum back from infinity. -/
@[simp] theorem top_add (y : WithTop ℚ) : format.add ⊤ y = ⊤ := rfl

/-- A sum with a positive number is not smaller. -/
theorem le_add (has : format.Has x) (nonneg : 0 ≤ x) (positive : 0 < y) :
    (x : WithTop ℚ) ≤ format.add (x : ℚ) (y : ℚ) := by
  rw [add_coe, ← has.round nonneg]
  exact round_mono nonneg (le_add_of_nonneg_right positive.le)

end Format

/-- The single precision. -/
def binary32 : Format := ⟨24, -149, 104, by decide, by decide⟩

/-- The double precision. -/
def binary64 : Format := ⟨53, -1074, 971, by decide, by decide⟩

/-- A whole number of at most 24 bits is one of the single precision. -/
theorem binary32_natCast {n : Nat} (small : n < 2 ^ 24) : binary32.Has n :=
  ⟨n, 0, by rw [abs_of_nonneg (Int.natCast_nonneg n)]; exact_mod_cast small, by decide, by decide,
    by simp⟩

/-- An odd whole number of more bits is none. -/
theorem binary32_odd {n : Nat} (large : 2 ^ 24 ≤ n) (odd : n % 2 = 1) : ¬binary32.Has n := by
  rintro ⟨m, e, small, -, -, same⟩
  have digits : m < 2 ^ 24 := (abs_lt.mp small).2
  rcases le_or_gt e 0 with low | high
  · -- the significand is the number or greater
    have whole : (2 : ℚ) ^ (-e) * n = m := by
      rw [same, mul_comm (m : ℚ), ← mul_assoc, ← zpow_add₀ two_ne_zero, neg_add_cancel, zpow_zero,
        one_mul]
    have one : (1 : ℚ) ≤ 2 ^ (-e) := one_le_zpow₀ one_le_two (by omega)
    have great : (n : ℚ) ≤ m := by
      rw [← whole]
      exact le_mul_of_one_le_left (Nat.cast_nonneg n) one
    have bound : (n : ℤ) ≤ m := by exact_mod_cast great
    omega
  · obtain ⟨k, rfl⟩ : ∃ k : Nat, e = k + 1 := ⟨(e - 1).toNat, by omega⟩
    have even : (n : ℤ) = m * 2 ^ k * 2 := by
      have cast : (n : ℚ) = ((m * 2 ^ k * 2 : ℤ) : ℚ) := by
        rw [same]
        push_cast
        rw [zpow_add₀ two_ne_zero, zpow_natCast, zpow_one]
        ring
      exact_mod_cast cast
    omega

end P3arsec.Lib
