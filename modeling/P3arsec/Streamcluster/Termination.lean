import P3arsec.Lib.Descent
import P3arsec.Streamcluster.RoundedSeeding

/-!
# The end of the search for the price

`pkmedian` lowers the price until `pspeedy` opens `kmin` centers. A price that is halved again and
again becomes zero, and then `pspeedy` opens a center wherever a point still pays. So this loop ends
if and only if the points need `kmin` centers at the price zero; it would go on forever with points
at fewer places. The search that follows takes the middle of two bounds and makes it one of them, so
it ends unless the middle of two neighbouring numbers is the bound that it replaces.
-/

namespace P3arsec.Streamcluster.Rounded

open P3arsec.Lib Value

namespace Kmedian

variable (kmedian : Kmedian)

/-- `lrand48` gives numbers up to `INT_MAX`. -/
def Choice.Ranged (choice : Choice) : Prop := ∀ i, choice.rand i ≤ intMax

/-- A price that becomes one of its bounds is another value than that bound. -/
def Between (s : State) : Prop :=
  s.phase = .adjust → (kmedian.kmax < s.k → s.loz < s.z) ∧ (s.k < kmedian.kmin → s.z < s.hiz)

/-- A step for numbers up to `INT_MAX`. -/
def RangedStep (s next : State) : Prop :=
  ∃ choice : Choice, choice.Ranged ∧ kmedian.step choice s = some next

/-- A step of a run in which the bounds of the price change. -/
def BetweenStep (s next : State) : Prop := kmedian.Between s ∧ kmedian.RangedStep s next

/-- The variables are of type `double`, and no price is negative. -/
structure Bounded (s : State) : Prop where
  /-- The upper bound. -/
  hiz : s.hiz.Nonneg ∧ binary64.Holds s.hiz
  /-- The lower bound. -/
  loz : s.loz.Nonneg ∧ binary64.Holds s.loz
  /-- The price. -/
  z : s.z.Nonneg ∧ binary64.Holds s.z
  /-- The cost. -/
  cost : binary64.Holds s.cost

/-- What is known while centers are opened: the price is a number where it matters, and at the price
zero there are enough centers. -/
structure Priced (s : State) : Prop where
  /-- The lower bound. -/
  low : s.loz = num 0
  /-- The price. -/
  finite : 1 < kmedian.kmin → ∃ x, s.z = num x
  /-- There is a center. -/
  some : 1 ≤ s.k
  /-- The centers. -/
  opened : binary32.convert s.z = num 0 → kmedian.kmin ≤ s.k

/-- The invariant of the search. -/
def Searched (points : Points Value) (k : Nat) (s : State) : Prop :=
  match s.phase with
  | .begin => s = start points k
  | .retry | .lower => points.Rearranged s.points ∧ Bounded s ∧ kmedian.Priced s
  | .select | .test _ | .adjust => Bounded s
  | .gain _ => Bounded s ∧ binary64.Holds s.change ∧ (s.change ≠ nan → s.change.Nonneg)
  | .few | .done => True

/-- How far the search has come. -/
def stage : Streamcluster.Kmedian.Phase → Nat
  | .begin => 5
  | .retry => 4
  | .lower => 3
  | .select => 2
  | .test _ | .gain _ | .adjust => 1
  | .few | .done => 0

/-- The calls of `pFL` that are left at a price. -/
def calls : Streamcluster.Kmedian.Phase → Nat
  | .test false | .gain false => 2
  | .test true | .gain true => 1
  | _ => 0

/-- The changes of the price that are left. -/
def changes (s : State) : Nat ×ₗ Nat :=
  match s.phase with
  | .retry => toLex (0, sp - s.i)
  | .lower => toLex (binary64.rank s.z, sp - s.i)
  | .test _ | .gain _ | .adjust => toLex (binary64.rank s.hiz - binary64.rank s.loz, 0)
  | _ => toLex (0, 0)

/-- The rounds of the loop of `pFL` that are left, and the calls of `pgain` in this one. -/
def improvements (s : State) : Nat ×ₗ Nat :=
  match s.phase with
  | .test accurate =>
    toLex (if Passes accurate s then 2 * binary64.worth s.cost + 2 else 0, 0)
  | .gain _ =>
    toLex (2 * binary64.worth s.cost + 1, kmedian.iterLog kmedian.kmax - s.iteration)
  | _ => toLex (0, 0)

/-- The rank of a state. -/
def rank (s : State) : Nat ×ₗ (Nat ×ₗ Nat) ×ₗ Nat ×ₗ (Nat ×ₗ Nat) :=
  toLex (stage s.phase, toLex (changes s, toLex (calls s.phase, kmedian.improvements s)))

variable {kmedian} {points : Points Value} {k : Nat} {s next : State} {choice : Choice}

/-! ### What lowers the rank -/

/-- A later phase. -/
theorem rank_lt_of_stage (falls : stage next.phase < stage s.phase) :
    kmedian.rank next < kmedian.rank s :=
  Prod.Lex.left _ _ falls

/-- A change of the price. -/
theorem rank_lt_of_changes (same : stage next.phase = stage s.phase)
    (falls : changes next < changes s) : kmedian.rank next < kmedian.rank s := by
  unfold rank
  rw [same]
  exact Prod.Lex.right _ (Prod.Lex.left _ _ falls)

/-- The end of a call of `pFL`. -/
theorem rank_lt_of_calls (same : stage next.phase = stage s.phase)
    (kept : changes next = changes s) (falls : calls next.phase < calls s.phase) :
    kmedian.rank next < kmedian.rank s := by
  unfold rank
  rw [same, kept]
  exact Prod.Lex.right _ (Prod.Lex.right _ (Prod.Lex.left _ _ falls))

/-- A step of the loop of `pFL`. -/
theorem rank_lt_of_improvements (same : stage next.phase = stage s.phase)
    (kept : changes next = changes s) (call : calls next.phase = calls s.phase)
    (falls : kmedian.improvements next < kmedian.improvements s) :
    kmedian.rank next < kmedian.rank s := by
  unfold rank
  rw [same, kept, call]
  exact Prod.Lex.right _ (Prod.Lex.right _ (Prod.Lex.right _ falls))

/-! ### The price -/

/-- The middle of two prices is a price. -/
theorem middle_price {hiz loz : Value} (high : hiz.Nonneg) (low : loz.Nonneg) :
    (middle hiz loz).Nonneg ∧ binary64.Holds (middle hiz loz) :=
  ⟨Format.nonneg_half (Format.nonneg_sum high low), Format.holds_div two_ne_zero⟩

/-- A price that is a number is halved to a number. -/
theorem middle_finite {z : Value} (price : z.Nonneg ∧ binary64.Holds z) (finite : ∃ x, z = num x) :
    ∃ x, middle z (num 0) = num x := by
  obtain ⟨x, rfl⟩ := finite
  rcases (show 0 ≤ x from price.1).eq_or_lt with rfl | positive
  · exact ⟨0, Format.half_zero⟩
  · obtain ⟨y, half, -⟩ := Format.half_lt price.2 positive (by decide)
    exact ⟨y, half⟩

/-- A half is smaller, unless it is zero. -/
theorem rank_middle_lt {z : Value} (price : z.Nonneg ∧ binary64.Holds z) (finite : ∃ x, z = num x)
    (some : z ≠ num 0) : binary64.rank (middle z (num 0)) < binary64.rank z := by
  obtain ⟨x, rfl⟩ := finite
  have positive : 0 < x := lt_of_le_of_ne price.1 fun zero => some (congrArg num zero.symm)
  obtain ⟨y, half, nonneg, less⟩ := Format.half_lt price.2 positive (by decide)
  have holds := (middle_price price.1 nonneg_zero).2
  rw [middle, half] at holds ⊢
  exact Format.rank_lt holds nonneg price.2 (num_lt_num.mpr less)

/-- The first upper bound is a price. -/
theorem hizOf_price (formed : Formed points) (some : 0 < points.num) {parts : List (List Nat)}
    (inside : ∀ part ∈ parts, ∀ i ∈ part, i < points.num) :
    (hizOf points parts).Nonneg ∧ binary64.Holds (hizOf points parts) := by
  refine foldl_keeps (fun hiz => hiz.Nonneg ∧ binary64.Holds hiz) _ (fun hiz kept part member => ?_)
    _ ⟨nonneg_zero, Format.holds_zero⟩
  refine ⟨Format.nonneg_sum kept.1 ?_, Format.holds_sum⟩
  refine foldl_keeps Value.Nonneg _ (fun sum nonneg i listed => ?_) _ nonneg_zero
  have known := inside part member i listed
  obtain ⟨w, positive, weight⟩ := formed.weight i known
  rw [weight]
  exact Format.nonneg_sum nonneg
    (Format.nonneg_mul (dist_nonneg (formed.coord i known) (formed.coord 0 some)) positive)

/-! ### The opening of centers -/

/-- `pspeedy` opens a center at the first point. -/
theorem one_le_pspeedy (points : Points Value) (rand : Nat → Nat) (z : Value) :
    1 ≤ (pspeedy points rand z).2.1 := by
  refine foldl_keeps (fun state : Points Value × Nat => 1 ≤ state.2) _ (fun state kept i _ => ?_) _
    le_rfl
  unfold speedyStep
  split
  · exact Nat.le_succ_of_le kept
  · exact kept

/-- What is known behind a call of `pspeedy`. -/
theorem seed_priced (formed : Formed points) (spread : Spread points kmedian.kmin)
    (some : 0 < points.num) {other : Points Value} (rearranged : points.Rearranged other)
    {rand : Nat → Nat} (ranged : ∀ i, rand i ≤ intMax) (bounded : Bounded s) (low : s.loz = num 0)
    (finite : 1 < kmedian.kmin → ∃ x, s.z = num x) :
    points.Rearranged (seed rand other s).points ∧ Bounded (seed rand other s) ∧
      kmedian.Priced (seed rand other s) := by
  refine ⟨rearranged.trans (alike_pspeedy other rand _).rearranged,
    ⟨bounded.hiz, bounded.loz, bounded.z, binary64_convert _⟩,
    ⟨low, finite, one_le_pspeedy other rand _, fun zero => ?_⟩⟩
  unfold seed
  dsimp only
  rw [show binary32.convert s.z = num 0 from zero]
  exact le_pspeedy_zero (formed.rearranged rearranged) (rearranged.num.symm ▸ some)
    (spread.rearranged rearranged) ranged

/-- The part before the loops. -/
theorem searched_begin (formed : Formed points) (spread : Spread points kmedian.kmin)
    (some : 0 < points.num) (inside : ∀ part ∈ kmedian.parts, ∀ i ∈ part, i < points.num)
    (finite : 1 < kmedian.kmin → hizOf points kmedian.parts ≠ posInf) (ranged : choice.Ranged) :
    kmedian.Searched points k (kmedian.stepBegin choice (start points k)) ∧
      kmedian.rank (kmedian.stepBegin choice (start points k)) < kmedian.rank (start points k) := by
  have price := hizOf_price formed some inside
  have half := middle_price price.1 nonneg_zero
  unfold stepBegin
  dsimp only
  split
  · exact ⟨trivial, rank_lt_of_stage (show 0 < 5 by decide)⟩
  · refine ⟨?_, rank_lt_of_stage (show 4 < 5 by decide)⟩
    obtain ⟨rearranged, bounded, priced⟩ := seed_priced formed spread some
      (rearranged_shuffle choice.shuffled) ranged (s := { start points k with
        hiz := hizOf points kmedian.parts
        loz := num 0
        z := middle (hizOf points kmedian.parts) (num 0) })
      ⟨price, ⟨nonneg_zero, Format.holds_zero⟩, half, Format.holds_zero⟩ rfl fun more => by
        refine middle_finite price ?_
        cases value : hizOf points kmedian.parts with
        | nan | negInf =>
          rw [value] at price
          exact price.1.elim
        | posInf => exact absurd value (finite more)
        | num x => exact ⟨x, rfl⟩
    exact ⟨rearranged, ⟨bounded.hiz, bounded.loz, bounded.z, bounded.cost⟩,
      ⟨priced.low, priced.finite, priced.some, priced.opened⟩⟩

/-- The loop that gives `pspeedy` more chances. -/
theorem searched_retry (formed : Formed points) (spread : Spread points kmedian.kmin)
    (some : 0 < points.num) (ranged : choice.Ranged) (phase : s.phase = .retry)
    (searched : points.Rearranged s.points ∧ Bounded s ∧ kmedian.Priced s) :
    kmedian.Searched points k (kmedian.stepRetry choice s) ∧
      kmedian.rank (kmedian.stepRetry choice s) < kmedian.rank s := by
  obtain ⟨rearranged, bounded, priced⟩ := searched
  unfold stepRetry
  split
  · rename_i more
    obtain ⟨rearranged', bounded', priced'⟩ :=
      seed_priced formed spread some rearranged ranged bounded priced.low priced.finite
    have kept : (seed choice.rand s.points s).phase = .retry := phase
    refine ⟨?_, rank_lt_of_changes rfl ?_⟩
    · unfold Searched
      dsimp only
      rw [kept]
      exact ⟨rearranged', ⟨bounded'.hiz, bounded'.loz, bounded'.z, bounded'.cost⟩,
        ⟨priced'.low, priced'.finite, priced'.some, priced'.opened⟩⟩
    · unfold changes
      dsimp only
      rw [kept, phase]
      refine Prod.Lex.right _ ?_
      show sp - (s.i + 1) < sp - s.i
      omega
  · refine ⟨⟨rearranged, ⟨bounded.hiz, bounded.loz, bounded.z, bounded.cost⟩,
      ⟨priced.low, priced.finite, priced.some, priced.opened⟩⟩, rank_lt_of_stage ?_⟩
    rw [phase]
    exact Nat.lt_succ_self 3

/-- The loop that lowers the price. -/
theorem searched_lower (formed : Formed points) (spread : Spread points kmedian.kmin)
    (some : 0 < points.num) (ranged : choice.Ranged) (phase : s.phase = .lower)
    (searched : points.Rearranged s.points ∧ Bounded s ∧ kmedian.Priced s) :
    kmedian.Searched points k (kmedian.stepLower choice s) ∧
      kmedian.rank (kmedian.stepLower choice s) < kmedian.rank s := by
  obtain ⟨rearranged, bounded, priced⟩ := searched
  unfold stepLower
  split
  · rename_i few
    have one := priced.some
    have finite := priced.finite (by omega)
    -- the price that is used now
    have lowered : ∃ s' : State, (if sp ≤ s.i then
          { s with hiz := s.z, z := middle s.z s.loz, i := 0 } else s) = s' ∧
        s'.phase = .lower ∧ s'.points = s.points ∧ Bounded s' ∧ s'.loz = num 0 ∧
        (∃ x, s'.z = num x) ∧
        toLex (binary64.rank s'.z, sp - (s'.i + 1)) < toLex (binary64.rank s.z, sp - s.i) := by
      split
      · have half := middle_price bounded.z.1 bounded.loz.1
        have falls := rank_middle_lt bounded.z finite fun zero => by
          have opened := priced.opened (by rw [zero]; exact Format.ofRat_zero)
          omega
        rw [← priced.low] at falls
        refine ⟨_, rfl, phase, rfl, ⟨bounded.z, bounded.loz, half, bounded.cost⟩, priced.low, ?_,
          Prod.Lex.left _ _ falls⟩
        dsimp only
        rw [priced.low]
        exact middle_finite bounded.z finite
      · refine ⟨_, rfl, phase, rfl, bounded, priced.low, finite, Prod.Lex.right _ ?_⟩
        omega
    obtain ⟨s', same, phase', points', bounded', low', finite', falls⟩ := lowered
    rw [same]
    dsimp only
    rw [points']
    obtain ⟨rearranged'', bounded'', priced''⟩ := seed_priced formed spread some
      (rearranged.trans (rearranged_shuffle choice.shuffled)) ranged bounded' low' fun _ => finite'
    have kept : (seed choice.rand (s.points.shuffle choice.shuffled) s').phase = .lower := phase'
    refine ⟨?_, rank_lt_of_changes (by rw [phase]; exact congrArg stage kept) ?_⟩
    · unfold Searched
      dsimp only
      rw [kept]
      exact ⟨rearranged'', ⟨bounded''.hiz, bounded''.loz, bounded''.z, bounded''.cost⟩,
        ⟨priced''.low, priced''.finite, priced''.some, priced''.opened⟩⟩
    · unfold changes
      dsimp only
      rw [kept, phase]
      exact falls
  · refine ⟨⟨bounded.hiz, bounded.loz, bounded.z, bounded.cost⟩, rank_lt_of_stage ?_⟩
    rw [phase]
    exact Nat.lt_succ_self 2

/-! ### The loop of `pFL` -/

/-- The changes of the price that are left in the search. -/
theorem changes_of_search (phase : (∃ accurate, s.phase = .test accurate) ∨
      (∃ accurate, s.phase = .gain accurate) ∨ s.phase = .adjust) :
    changes s = toLex (binary64.rank s.hiz - binary64.rank s.loz, 0) := by
  unfold changes
  rcases phase with ⟨accurate, phase⟩ | ⟨accurate, phase⟩ | phase <;> rw [phase]

/-- The test of the loop of `pFL`. -/
theorem searched_test {accurate : Bool} (phase : s.phase = .test accurate) (bounded : Bounded s) :
    kmedian.Searched points k (kmedian.stepTest accurate s) ∧
      kmedian.rank (kmedian.stepTest accurate s) < kmedian.rank s := by
  have kept : ∀ s' : State, (∃ accurate, s'.phase = .test accurate) ∨
      (∃ accurate, s'.phase = .gain accurate) ∨ s'.phase = .adjust →
      s'.hiz = s.hiz → s'.loz = s.loz → changes s' = changes s := by
    intro s' phase' high low
    rw [changes_of_search phase', changes_of_search (.inl ⟨accurate, phase⟩), high, low]
  unfold stepTest
  split
  · rename_i passes
    refine ⟨⟨⟨bounded.hiz, bounded.loz, bounded.z, bounded.cost⟩, Format.holds_zero,
      fun _ => nonneg_zero⟩, rank_lt_of_improvements (by rw [phase]; rfl)
      (kept _ (.inr (.inl ⟨_, rfl⟩)) rfl rfl) (by rw [phase]; cases accurate <;> rfl) ?_⟩
    unfold improvements
    rw [phase]
    dsimp only
    rw [if_pos passes]
    exact Prod.Lex.left _ _ (Nat.lt_succ_self _)
  split
  · rename_i rough
    refine ⟨⟨bounded.hiz, bounded.loz, bounded.z, binary64_convert _⟩,
      rank_lt_of_calls (by rw [phase]; rfl) (kept _ (.inl ⟨_, rfl⟩) rfl rfl) ?_⟩
    rw [phase, rough.1]
    exact Nat.lt_succ_self 1
  · refine ⟨⟨bounded.hiz, bounded.loz, bounded.z, binary64_convert _⟩,
      rank_lt_of_calls (by rw [phase]; rfl) (kept _ (.inr (.inr rfl)) rfl rfl) ?_⟩
    rw [phase]
    cases accurate
    · exact Nat.succ_pos 1
    · exact Nat.succ_pos 0

/-- The threshold is a number that is not small. -/
theorem exists_threshold (accurate : Bool) :
    ∃ share, threshold accurate = num share ∧ 2 ^ (1 - (binary64.precision : ℤ)) ≤ share := by
  have one : binary64.Has 1 := ⟨1, 0, by decide, by decide, by decide, by norm_num⟩
  have one' : binary32.Has 1 := ⟨1, 0, by decide, by decide, by decide, by norm_num⟩
  have small : ∀ {format : Format} {x : ℚ}, format.Has (2 ^ (-10 : ℤ)) → 2 ^ (-10 : ℤ) ≤ x →
      x ≤ 1 → format.Has 1 → ∃ y, format.ofRat x = num y ∧ 2 ^ (-10 : ℤ) ≤ y ∧ y ≤ 1 := by
    intro format x has low high top
    obtain ⟨y, value, -, most⟩ := Format.exists_ofRat
      ((Format.two_zpow_pos (-10)).le.trans low) high top
    exact ⟨y, value, Format.le_of_ofRat has (Format.two_zpow_pos (-10)).le low value, most⟩
  have has : binary64.Has (2 ^ (-10 : ℤ)) :=
    ⟨1, -10, by decide, by decide, by decide, by norm_num⟩
  have has' : binary32.Has (2 ^ (-10 : ℤ)) :=
    ⟨1, -10, by decide, by decide, by decide, by norm_num⟩
  obtain ⟨x, first, low, high⟩ := small (x := if accurate then 1 / 1000 else 1 / 10) has
    (by cases accurate <;> norm_num) (by cases accurate <;> norm_num) one
  obtain ⟨y, second, low', high'⟩ := small has' low high one'
  obtain ⟨z, third, low'', -⟩ :=
    small has (low'.trans (one_mul y).ge) ((one_mul y).trans_le high') one
  refine ⟨z, ?_, le_trans (zpow_le_zpow_right₀ one_le_two (by decide)) low''⟩
  unfold threshold
  rw [first]
  show binary64.mul (num 1) (binary32.ofRat x) = num z
  rw [second]
  exact third

/-- `pgain` returns a value that is not negative. -/
theorem pgain_nonneg (glCostOfOpeningX : Value) : (pgain glCostOfOpeningX).Nonneg := by
  unfold pgain
  split
  · exact nonneg_neg (by assumption)
  · exact nonneg_zero

/-- A call of `pgain`, or the end of the loop: the loop goes on only where the cost has fallen. -/
theorem searched_gain {accurate : Bool} (phase : s.phase = .gain accurate)
    (searched : Bounded s ∧ binary64.Holds s.change ∧ (s.change ≠ nan → s.change.Nonneg))
    (moves : kmedian.stepGain choice accurate s = some next) :
    kmedian.Searched points k next ∧ kmedian.rank next < kmedian.rank s := by
  obtain ⟨bounded, holds, saved⟩ := searched
  unfold stepGain at moves
  split at moves
  · rename_i more
    split at moves
    case isFalse => cases moves
    cases moves
    refine ⟨?_, rank_lt_of_improvements rfl rfl rfl ?_⟩
    · unfold Searched
      dsimp only
      rw [phase]
      refine ⟨⟨bounded.hiz, bounded.loz, bounded.z, bounded.cost⟩, Format.holds_sum, fun some => ?_⟩
      have number : s.change ≠ nan := by
        intro none
        refine some ?_
        rw [none]
        rfl
      exact Format.nonneg_sum (saved number) (pgain_nonneg choice.glCostOfOpeningX)
    · unfold improvements
      dsimp only
      rw [phase]
      refine Prod.Lex.right _ ?_
      omega
  · cases moves
    refine ⟨⟨bounded.hiz, bounded.loz, bounded.z, Format.holds_sub⟩,
      rank_lt_of_improvements (by rw [phase]; rfl) ?_ (by rw [phase]; cases accurate <;> rfl) ?_⟩
    · rw [changes_of_search (.inl ⟨accurate, rfl⟩),
        changes_of_search (.inr (.inl ⟨accurate, phase⟩))]
    · unfold improvements
      rw [phase]
      dsimp only
      refine Prod.Lex.left _ _ ?_
      split
      · rename_i passes
        obtain ⟨share, value, great⟩ := exists_threshold accurate
        unfold Passes at passes
        rw [value] at passes
        have unit : binary64.Has (2 ^ (1 - (binary64.precision : ℤ))) :=
          ⟨1, -52, by decide, by decide, by decide, by norm_num [binary64]⟩
        have less := Format.worth_sub_lt bounded.cost holds saved unit great passes
        omega
      · exact Nat.succ_pos _

/-! ### The change of the price -/

/-- The factor of the test that ends the search is a positive number that is not above one. -/
theorem exists_factor :
    ∃ share, binary64.ofRat (999 / 1000) = num share ∧ 0 < share ∧ share ≤ 1 := by
  have one : binary64.Has 1 := ⟨1, 0, by decide, by decide, by decide, by norm_num⟩
  have half : binary64.Has (1 / 2) := ⟨1, -1, by decide, by decide, by decide, by norm_num⟩
  obtain ⟨share, value, -, most⟩ :=
    Format.exists_ofRat (x := 999 / 1000) (by norm_num) (by norm_num) one
  have least := Format.le_of_ofRat half (by norm_num) (by norm_num) value
  exact ⟨share, value, by linarith, most⟩

/-- A change of the price brings the bounds nearer to each other. -/
theorem searched_adjust (ordered : kmedian.kmin ≤ kmedian.kmax) (phase : s.phase = .adjust)
    (bounded : Bounded s) (between : kmedian.Between s) :
    kmedian.Searched points k (kmedian.stepAdjust s) ∧
      kmedian.rank (kmedian.stepAdjust s) < kmedian.rank s := by
  obtain ⟨above, below⟩ := between phase
  obtain ⟨share, factor, positive, part⟩ := exists_factor
  have nearer : ∀ hiz loz : Value, (hiz.Nonneg ∧ binary64.Holds hiz) →
      loz < binary64.mul (binary64.ofRat (999 / 1000)) hiz → loz < hiz := by
    intro hiz loz price less
    rw [factor] at less
    exact Format.lt_of_lt_mul positive part price.1 price.2 less
  unfold stepAdjust
  dsimp only
  by_cases many : kmedian.kmax < s.k
  · have enough : ¬s.k < kmedian.kmin := by omega
    rw [if_pos many]
    dsimp only
    rw [if_neg enough]
    dsimp only
    split
    · exact ⟨trivial, rank_lt_of_stage (by rw [phase]; exact Nat.one_pos)⟩
    · rename_i goesOn
      have less := not_not.mp (not_or.mp goesOn).2
      have rises := Format.rank_lt bounded.loz.2 bounded.loz.1 bounded.z.2 (above many)
      have stays := Format.rank_lt bounded.z.2 bounded.z.1 bounded.hiz.2
        (nearer _ _ bounded.hiz less)
      refine ⟨⟨bounded.hiz, bounded.z, middle_price bounded.hiz.1 bounded.z.1, Format.holds_sum⟩,
        rank_lt_of_changes (by rw [phase]; rfl) ?_⟩
      rw [changes_of_search (.inl ⟨false, rfl⟩), changes_of_search (.inr (.inr phase))]
      refine Prod.Lex.left _ _ ?_
      show binary64.rank s.hiz - binary64.rank s.z < binary64.rank s.hiz - binary64.rank s.loz
      omega
  rw [if_neg many]
  by_cases few : s.k < kmedian.kmin
  · rw [if_pos few]
    dsimp only
    split
    · exact ⟨trivial, rank_lt_of_stage (by rw [phase]; exact Nat.one_pos)⟩
    · rename_i goesOn
      have less := not_not.mp (not_or.mp goesOn).2
      have falls := Format.rank_lt bounded.z.2 bounded.z.1 bounded.hiz.2 (below few)
      have stays := Format.rank_lt bounded.loz.2 bounded.loz.1 bounded.z.2
        (nearer _ _ bounded.z less)
      refine ⟨⟨bounded.z, bounded.loz, middle_price bounded.z.1 bounded.loz.1, Format.holds_sum⟩,
        rank_lt_of_changes (by rw [phase]; rfl) ?_⟩
      rw [changes_of_search (.inl ⟨false, rfl⟩), changes_of_search (.inr (.inr phase))]
      refine Prod.Lex.left _ _ ?_
      show binary64.rank s.z - binary64.rank s.loz < binary64.rank s.hiz - binary64.rank s.loz
      omega
  · rw [if_neg few, if_pos (.inl ⟨not_lt.mp many, not_lt.mp few⟩)]
    exact ⟨trivial, rank_lt_of_stage (by rw [phase]; exact Nat.one_pos)⟩

/-! ### Runs -/

/-- Every step of a run in which the bounds change keeps the invariant and lowers the rank. -/
theorem searched_step (formed : Formed points) (spread : Spread points kmedian.kmin)
    (some : 0 < points.num) (inside : ∀ part ∈ kmedian.parts, ∀ i ∈ part, i < points.num)
    (finite : 1 < kmedian.kmin → hizOf points kmedian.parts ≠ posInf)
    (ordered : kmedian.kmin ≤ kmedian.kmax) (searched : kmedian.Searched points k s)
    (moves : kmedian.BetweenStep s next) :
    kmedian.Searched points k next ∧ kmedian.rank next < kmedian.rank s := by
  obtain ⟨between, choice, ranged, moves⟩ := moves
  unfold Searched at searched
  unfold step at moves
  cases phase : s.phase with
  | begin =>
    rw [phase] at searched moves
    obtain rfl : s = start points k := searched
    cases moves
    exact searched_begin formed spread some inside finite ranged
  | retry =>
    rw [phase] at searched moves
    cases moves
    exact searched_retry formed spread some ranged phase searched
  | lower =>
    rw [phase] at searched moves
    cases moves
    exact searched_lower formed spread some ranged phase searched
  | select =>
    rw [phase] at searched moves
    cases moves
    exact ⟨⟨searched.hiz, searched.loz, searched.z, searched.cost⟩,
      rank_lt_of_stage (by rw [phase]; exact Nat.lt_succ_self 1)⟩
  | test accurate =>
    rw [phase] at searched moves
    cases moves
    exact searched_test phase searched
  | gain accurate =>
    rw [phase] at searched moves
    exact searched_gain phase searched moves
  | adjust =>
    rw [phase] at searched moves
    cases moves
    exact searched_adjust ordered phase searched between
  | few | done =>
    rw [phase] at moves
    cases moves

/-- A call has returned when it has no next step, or there is no point that may become a center. -/
theorem ended_of_step (ends : kmedian.step choice s = none) :
    s.phase = .few ∨ s.phase = .done ∨ s.numfeasible = 0 := by
  unfold step at ends
  cases phase : s.phase with
  | few => exact .inl rfl
  | done => exact .inr (.inl rfl)
  | gain accurate =>
    rw [phase] at ends
    dsimp only at ends
    unfold stepGain at ends
    split at ends
    · split at ends
      · exact nomatch ends
      · exact .inr (.inr (by omega))
    · exact nomatch ends
  | begin | retry | lower | select | test | adjust =>
    rw [phase] at ends
    exact nomatch ends

variable (kmedian) in
/-- A call of `pkmedian` ends for all numbers up to `INT_MAX` and whatever `pgain` comes to, when
the points need `kmin` centers at the price zero, the first price is finite unless one center is
enough, and a price that becomes one of its bounds is another value than that bound. -/
theorem pkmedian_ends (formed : Formed points) (ordered : kmedian.kmin ≤ kmedian.kmax)
    (many : kmedian.kmax < points.num) (shares : kmedian.parts.flatten = List.range points.num)
    (spread : Spread points kmedian.kmin)
    (finite : 1 < kmedian.kmin → hizOf points kmedian.parts ≠ posInf) (k : Nat) :
    (¬∃ run : Nat → State, run 0 = start points k ∧
      ∀ i, kmedian.BetweenStep (run i) (run (i + 1))) ∧
    ∀ s (choice : Choice), kmedian.step choice s = none →
      s.phase = .few ∨ s.phase = .done ∨ s.numfeasible = 0 := by
  have inside : ∀ part ∈ kmedian.parts, ∀ i ∈ part, i < points.num := by
    intro part member i listed
    have all : i ∈ kmedian.parts.flatten := List.mem_flatten.mpr ⟨part, member, listed⟩
    rw [shares] at all
    exact List.mem_range.mp all
  refine ⟨no_infinite_descent (kmedian.Searched points k) kmedian.rank
    (fun s next => searched_step formed spread (by omega) inside finite ordered) ?_,
    fun s choice => ended_of_step⟩
  exact (rfl : start points k = start points k)

/-! ### Points at one place -/

section Sample

/-- Two medians, with two workers. -/
def pairKmedian : Kmedian := ⟨2, 2, [[0], [1, 2]], fun k => 4 * k⟩

/-- Three points on a line, the first `n` of them at the origin. -/
def line (n : Nat) : Points Value :=
  ⟨3, 1, fun i => ⟨num 1, fun _ => num (if i < n then 0 else i), 0, num 0⟩⟩

/-- The points are formed. -/
theorem line_formed (n : Nat) : Formed (line n) :=
  ⟨fun _ _ _ => ⟨_, rfl⟩, fun _ _ => ⟨1, one_pos, rfl⟩⟩

/-- Points at three places need two centers. -/
theorem line_spread : Spread (line 1) 2 := by
  intro centers costless
  match centers with
  | [] =>
    obtain ⟨c, member, -⟩ := costless.covers 0 (by decide)
    exact absurd member List.not_mem_nil
  | [c] =>
    have inside : c < 3 := costless.inside c (List.mem_singleton_self c)
    have pays : ∀ c < 3, ∃ i < 3, price (line 1) c i ≠ num 0 := by decide +kernel
    obtain ⟨i, known, some⟩ := pays c inside
    obtain ⟨c', member, free⟩ := costless.covers i known
    rw [List.mem_singleton.mp member] at free
    exact absurd free some
  | _ :: _ :: _ => exact Nat.le_add_left 2 _

/-- A call for points at three places ends. -/
theorem pkmedian_ends_sample :
    (¬∃ run : Nat → State, run 0 = start (line 1) 0 ∧
      ∀ i, pairKmedian.BetweenStep (run i) (run (i + 1))) ∧
    ∀ s (choice : Choice), pairKmedian.step choice s = none →
      s.phase = .few ∨ s.phase = .done ∨ s.numfeasible = 0 :=
  pkmedian_ends pairKmedian (line_formed 1) (by decide) (by decide) rfl line_spread
    (fun _ => by decide +kernel) 0

/-- All points are at the origin. -/
structure Heap (points : Points Value) : Prop where
  /-- There are three. -/
  num : points.num = 3
  /-- Their weights. -/
  weight : ∀ i < 3, (points.p i).weight = .num 1
  /-- Their coordinates. -/
  coord : ∀ i < 3, (points.p i).coord = fun _ => .num 0

/-- They are at the origin in every order. -/
theorem Heap.rearranged {points other : Points Value} (heap : Heap points)
    (rearranged : points.Rearranged other) : Heap other := by
  have same : other.num = 3 := rearranged.num.trans heap.num
  refine ⟨same, fun i inside => ?_, fun i inside => ?_⟩
  · obtain ⟨j, bound, weight, -⟩ := exists_entry rearranged (same ▸ inside)
    exact weight.symm.trans (heap.weight j (heap.num ▸ bound))
  · obtain ⟨j, bound, -, coord⟩ := exists_entry rearranged (same ▸ inside)
    exact coord.symm.trans (heap.coord j (heap.num ▸ bound))

/-- For the price zero `pspeedy` opens no second center. -/
theorem Heap.pspeedy {points : Points Value} (heap : Heap points) (rand : Nat → Nat) :
    (pspeedy points rand (Value.num 0)).2.1 = 1 := by
  have free : ∀ i < 3, ((sendToFirst points).p i).cost = Value.num 0 := by
    intro i inside
    have numbers : ∀ d, ∃ x, (points.p 0).coord d = Value.num x := fun d =>
      ⟨0, congrFun (heap.coord 0 (by decide)) d⟩
    have same : dist (points.p i) (points.p 0) points.dim =
        dist (points.p 0) (points.p 0) points.dim := by
      unfold dist
      rw [heap.coord i inside, heap.coord 0 (by decide)]
    unfold sendToFirst
    dsimp only
    rw [if_pos (heap.num.symm ▸ inside), same, dist_self numbers, heap.weight i inside]
    exact Format.zero_mul
  have kept : (List.range' 1 (points.num - 1)).foldl (speedyStep rand (Value.num 0))
      (sendToFirst points, 1) = (sendToFirst points, 1) := by
    refine foldl_keeps (· = (sendToFirst points, 1)) _ (fun state same i member => ?_) _ rfl
    have inside : i < 3 := by
      have listed := List.mem_range'_1.mp member
      rw [heap.num] at listed
      omega
    rw [same, speedyStep, free i inside, Format.zero_div_zero, if_neg not_lt_nan]
  unfold Rounded.pspeedy
  dsimp only
  rw [kept]

/-- A state in which a center is missing. -/
def Missing (s : State) : Prop :=
  s = start (line 3) 0 ∨ (s.phase = .retry ∨ s.phase = .lower) ∧ Heap s.points ∧ s.k = 1 ∧
    s.z = num 0 ∧ s.loz = num 0

/-- A call of `pspeedy` for points at one place leaves a center missing. -/
theorem missing_seed {s : State} {points : Points Value} (heap : Heap points) (zero : s.z = num 0)
    (rand : Nat → Nat) : Heap (seed rand points s).points ∧ (seed rand points s).k = 1 := by
  refine ⟨heap.rearranged (alike_pspeedy _ rand _).rearranged, ?_⟩
  unfold seed
  rw [zero]
  exact (congrArg (fun z => (pspeedy _ rand z).2.1) Format.ofRat_zero).trans (heap.pspeedy rand)

/-- A center stays missing: the loop that lowers the price has no bound. -/
theorem missing_step {s : State} (missing : Missing s) :
    ∃ next, pairKmedian.RangedStep s next ∧ Missing next := by
  let zeros : Choice := ⟨fun _ => 0, fun _ => 0, num 0, 0⟩
  suffices ∃ next, pairKmedian.step zeros s = some next ∧ Missing next by
    obtain ⟨next, moves, stays⟩ := this
    exact ⟨next, ⟨zeros, fun _ => Nat.zero_le _, moves⟩, stays⟩
  rcases missing with rfl | ⟨phase, heap, single, zero, low⟩
  · have heap : Heap (line 3) :=
      ⟨rfl, fun _ _ => rfl, fun i inside => funext fun _ => congrArg num (if_pos inside)⟩
    have nothing : middle (hizOf (line 3) [[0], [1, 2]]) (num 0) = num 0 := by decide +kernel
    obtain ⟨heap', single⟩ := missing_seed (s := { start (line 3) 0 with
      hiz := hizOf (line 3) [[0], [1, 2]], z := middle (hizOf (line 3) [[0], [1, 2]]) (num 0) })
      (heap.rearranged (rearranged_shuffle zeros.shuffled)) nothing zeros.rand
    exact ⟨_, rfl, .inr ⟨.inl rfl, heap', single, nothing, rfl⟩⟩
  have few : s.k < pairKmedian.kmin := by
    rw [single]
    exact one_lt_two
  rcases phase with phase | phase <;> unfold step <;> rw [phase]
  · refine ⟨_, rfl, .inr ?_⟩
    unfold stepRetry
    split
    · obtain ⟨heap', single'⟩ := missing_seed heap zero zeros.rand
      exact ⟨.inl phase, heap', single', zero, low⟩
    · exact ⟨.inr rfl, heap, single, zero, low⟩
  · refine ⟨_, rfl, .inr ?_⟩
    have heap' := heap.rearranged (rearranged_shuffle zeros.shuffled)
    unfold stepLower
    rw [if_pos few]
    by_cases tried : sp ≤ s.i
    · have half : middle s.z s.loz = num 0 := by
        rw [zero, low]
        exact Format.half_zero
      rw [if_pos tried]
      obtain ⟨heap'', single'⟩ := missing_seed heap' half zeros.rand
        (s := { s with hiz := s.z, z := middle s.z s.loz, i := 0 })
      exact ⟨.inr phase, heap'', single', half, low⟩
    · rw [if_neg tried]
      obtain ⟨heap'', single'⟩ := missing_seed heap' zero zeros.rand
      exact ⟨.inr phase, heap'', single', zero, low⟩

/-- A call for three points at one place and two medians goes on forever. -/
theorem pkmedian_ends_fails :
    1 ≤ pairKmedian.kmin ∧ pairKmedian.kmin ≤ pairKmedian.kmax ∧
    pairKmedian.kmax < (line 3).num ∧ Formed (line 3) ∧
    pairKmedian.parts.flatten = List.range (line 3).num ∧
    ∃ run : Nat → State, run 0 = start (line 3) 0 ∧
      ∀ i, pairKmedian.RangedStep (run i) (run (i + 1)) :=
  ⟨by decide, by decide, by decide, line_formed 3, rfl,
    exists_infinite_run Missing (fun _ => missing_step) (.inl rfl)⟩

/-- Different points can be so near that one center is enough: a point at `1e-30` pays nothing at
the origin. -/
example : price ⟨3, 1, fun i => ⟨num 1, fun _ => binary32.ofRat (i / 10 ^ 30), 0, num 0⟩⟩ 0 1 =
    num 0 := by
  decide +kernel

end Sample

end Kmedian

end P3arsec.Streamcluster.Rounded
