import P3arsec.Streamcluster.RoundedKmedian

/-!
# The seeding at the price zero

When the price has become zero `pspeedy` opens a center wherever a point still pays something. The
centers that it has opened then cost each other something, in their order, and no point pays any
more. So there are as many of them as every such choice of centers has.
-/

namespace P3arsec.Streamcluster.Rounded

open P3arsec.Lib Value

/-- The coordinates of the points are numbers, and the weights positive ones. -/
structure Formed (points : Points Value) : Prop where
  /-- The coordinates. -/
  coord : ∀ i < points.num, ∀ d, ∃ x, (points.p i).coord d = num x
  /-- The weights. -/
  weight : ∀ i < points.num, ∃ w, 0 < w ∧ (points.p i).weight = num w

/-- Centers that could be opened one after the other at the price zero: each of them still pays
something before it is opened, and in the end no point does. -/
structure Costless (points : Points Value) (centers : List Nat) : Prop where
  /-- They are points. -/
  inside : ∀ c ∈ centers, c < points.num
  /-- A center pays something at each of those before it. -/
  apart : centers.Pairwise fun c i => num 0 < price points c i
  /-- Every point is at a center without cost. -/
  covers : ∀ i < points.num, ∃ c ∈ centers, price points c i = num 0

/-- The points need so many centers at the price zero, in whatever order they come. -/
def Spread (points : Points Value) (kmin : Nat) : Prop :=
  ∀ centers, Costless points centers → kmin ≤ centers.length

variable {points other : Points Value} {i j : Nat} {dim : Nat} {p q : Point Value}

/-! ### Distances -/

/-- A distance between numbers is not negative. -/
theorem dist_nonneg (first : ∀ d, ∃ x, p.coord d = num x) (second : ∀ d, ∃ x, q.coord d = num x) :
    (dist p q dim).Nonneg := by
  unfold dist
  refine foldl_keeps Value.Nonneg _ (fun result nonneg d _ => ?_) _ le_rfl
  obtain ⟨x, left⟩ := first d
  obtain ⟨y, right⟩ := second d
  rw [left, right]
  exact Format.nonneg_sum nonneg (Format.nonneg_mul_self Format.sub_ne_nan)

/-- A point has no distance from itself. -/
theorem dist_self (numbers : ∀ d, ∃ x, p.coord d = num x) : dist p p dim = num 0 := by
  unfold dist
  refine foldl_keeps (· = num 0) _ (fun result zero d _ => ?_) _ rfl
  obtain ⟨x, same⟩ := numbers d
  rw [zero, same]
  dsimp only
  rw [Format.sub_self, Format.zero_mul, Format.zero_sum_zero]

/-- A distance is the same both ways. -/
theorem dist_comm (first : ∀ d, ∃ x, p.coord d = num x) (second : ∀ d, ∃ x, q.coord d = num x) :
    dist p q dim = dist q p dim := by
  unfold dist
  congr 1
  funext result d
  obtain ⟨x, left⟩ := first d
  obtain ⟨y, right⟩ := second d
  rw [left, right]
  dsimp only
  rw [Format.mul_sub_comm]

/-- A price is not negative. -/
theorem Formed.price_nonneg (formed : Formed points) (first : i < points.num)
    (second : j < points.num) : (price points i j).Nonneg := by
  obtain ⟨w, positive, weight⟩ := formed.weight j second
  rw [price, weight]
  exact Format.nonneg_mul (dist_nonneg (formed.coord i first) (formed.coord j second)) positive

/-- A point pays nothing at itself. -/
theorem Formed.price_self (formed : Formed points) (first : i < points.num) :
    price points i i = num 0 := by
  obtain ⟨w, -, weight⟩ := formed.weight i first
  rw [price, weight, dist_self (formed.coord i first), Format.zero_mul]

/-! ### Points in another order -/

/-- The prices depend on the coordinates and the weights. -/
theorem price_alike (alike : points.Alike other) (c i : Nat) :
    price other c i = price points c i := by
  unfold price dist
  rw [alike.dim, alike.weight, alike.coord, alike.coord]

/-- Points are found in a rearrangement. -/
theorem exists_entry (rearranged : points.Rearranged other) (inside : i < other.num) :
    ∃ j < points.num, (points.p j).weight = (other.p i).weight ∧
      (points.p j).coord = (other.p i).coord := by
  have member : ((other.p i).weight, (other.p i).coord) ∈ other.bag :=
    Multiset.mem_map_of_mem _ (Multiset.mem_range.mpr inside)
  rw [rearranged.bag] at member
  obtain ⟨j, bound, entry⟩ := Multiset.mem_map.mp member
  exact ⟨j, Multiset.mem_range.mp bound, congrArg Prod.fst entry, congrArg Prod.snd entry⟩

/-- A rearrangement goes both ways. -/
theorem rearranged_symm (rearranged : points.Rearranged other) : other.Rearranged points :=
  ⟨rearranged.num.symm, rearranged.dim.symm, rearranged.bag.symm⟩

/-- Formed points are so in another order. -/
theorem Formed.rearranged (formed : Formed points) (rearranged : points.Rearranged other) :
    Formed other := by
  refine ⟨fun i inside d => ?_, fun i inside => ?_⟩
  · obtain ⟨j, bound, -, coord⟩ := exists_entry rearranged inside
    exact coord ▸ formed.coord j bound d
  · obtain ⟨j, bound, weight, -⟩ := exists_entry rearranged inside
    exact weight ▸ formed.weight j bound

/-- The number of centers that are needed does not depend on the order of the points. -/
theorem Spread.rearranged {kmin : Nat} (spread : Spread points kmin)
    (rearranged : points.Rearranged other) : Spread other kmin := by
  intro centers costless
  choose! place bound weight coord using fun i => exists_entry rearranged (i := i)
  have same : ∀ c < other.num, ∀ i < other.num,
      price points (place c) (place i) = price other c i := by
    intro c first i second
    unfold price dist
    rw [rearranged.dim, weight i second, coord i second, coord c first]
  have mapped : Costless points (centers.map place) := by
    refine ⟨?_, ?_, fun i inside => ?_⟩
    · intro c member
      obtain ⟨c', known, rfl⟩ := List.mem_map.mp member
      exact bound c' (costless.inside c' known)
    · rw [List.pairwise_map]
      refine costless.apart.imp_of_mem fun {c i} first second pays => ?_
      rw [same c (costless.inside c first) i (costless.inside i second)]
      exact pays
    · obtain ⟨i', inside', weight', coord'⟩ := exists_entry (rearranged_symm rearranged) inside
      obtain ⟨c, member, free⟩ := costless.covers i' inside'
      refine ⟨place c, List.mem_map_of_mem member, ?_⟩
      rw [← free]
      unfold price dist
      rw [rearranged.dim, weight', coord', coord c (costless.inside c member)]
  have enough := spread _ mapped
  rwa [List.length_map] at enough

/-! ### What `pspeedy` keeps -/

/-- The points that are sent to the first one are the same. -/
theorem alike_sendToFirst (points : Points Value) : points.Alike (sendToFirst points) := by
  refine ⟨rfl, rfl, fun i => ?_, fun i => ?_⟩ <;> unfold sendToFirst <;> dsimp only <;>
    split <;> rfl

/-- The points behind the opening of a center are the same. -/
theorem alike_openCenter (points : Points Value) (i : Nat) :
    points.Alike (openCenter points i) := by
  refine ⟨rfl, rfl, fun i => ?_, fun i => ?_⟩ <;> unfold openCenter <;> dsimp only <;> split <;> rfl

/-- The points behind a step of `pspeedy` are the same. -/
theorem alike_speedyStep (rand : Nat → Nat) (z : Value) (state : Points Value × Nat) (i : Nat) :
    state.1.Alike (speedyStep rand z state i).1 := by
  unfold speedyStep
  split
  · exact alike_openCenter state.1 i
  · exact Points.Alike.refl state.1

/-- `pspeedy` keeps the points. -/
theorem alike_pspeedy (points : Points Value) (rand : Nat → Nat) (z : Value) :
    points.Alike (pspeedy points rand z).1 :=
  foldl_keeps (fun state : Points Value × Nat => points.Alike state.1) _
    (fun state alike i _ => alike.trans (alike_speedyStep rand z state i)) _
    (alike_sendToFirst points)

/-! ### The centers that `pspeedy` opens at the price zero -/

/-- A random number is a number. -/
theorem exists_random {rand : Nat} (ranged : rand ≤ intMax) : ∃ x, random rand = num x := by
  have top : binary32.Has (2 ^ 31) := ⟨1, 31, by decide, by decide, by decide, by norm_num⟩
  have low : binary32.Has (2 ^ 30) := ⟨1, 30, by decide, by decide, by decide, by norm_num⟩
  have two : binary32.Has 2 := binary32_natCast (n := 2) (by decide)
  have great : (2 : ℚ) ^ 30 ≤ (intMax : ℚ) := by norm_num [intMax]
  have small : (intMax : ℚ) ≤ 2 ^ 31 := by norm_num [intMax]
  have number : (rand : ℚ) ≤ intMax := by exact_mod_cast ranged
  obtain ⟨x, first, nonneg, most⟩ :=
    Format.exists_ofRat (Nat.cast_nonneg rand) (number.trans small) top
  obtain ⟨y, second, -, -⟩ := Format.exists_ofRat (Nat.cast_nonneg intMax) small top
  have least : (2 : ℚ) ^ 30 ≤ y := Format.le_of_ofRat low (by norm_num) great second
  have divisor : 0 < y := lt_of_lt_of_le (by norm_num) least
  have ratio : x / y ≤ 2 := by
    rw [div_le_iff₀ divisor]
    linarith
  obtain ⟨z, quotient, -, -⟩ := Format.exists_ofRat (div_nonneg nonneg divisor.le) ratio two
  exact ⟨z, by rw [random, first, second, Format.num_div_num divisor.ne', quotient]⟩

/-- What holds while `pspeedy` opens centers at the price zero: the cost of a point is the least
price at the centers, and the points that have been looked at pay nothing any more. -/
structure Opening (points : Points Value) (centers : List Nat) (next : Nat)
    (state : Points Value × Nat) : Prop where
  /-- The points. -/
  alike : points.Alike state.1
  /-- The number of the centers. -/
  count : state.2 = centers.length
  /-- They are points. -/
  inside : ∀ c ∈ centers, c < points.num
  /-- A center pays something at each of those before it. -/
  apart : centers.Pairwise fun c i => num 0 < price points c i
  /-- A cost is the price at a center. -/
  paid : ∀ i < points.num, ∃ c ∈ centers, (state.1.p i).cost = price points c i
  /-- It is the least one. -/
  least : ∀ i < points.num, ∀ c ∈ centers, ¬price points c i < (state.1.p i).cost
  /-- The points before the next one pay nothing. -/
  covered : ∀ i < next, ∃ c ∈ centers, price points c i = num 0

/-- At the begin the first point is the only center. -/
theorem Formed.opening (formed : Formed points) (some : 0 < points.num) :
    Opening points [0] 1 (sendToFirst points, 1) := by
  have cost : ∀ i < points.num, ((sendToFirst points).p i).cost = price points 0 i := by
    intro i inside
    unfold sendToFirst price
    dsimp only
    rw [if_pos inside, dist_comm (formed.coord i inside) (formed.coord 0 some)]
  refine ⟨alike_sendToFirst points, rfl, ?_, List.pairwise_singleton _ _, ?_, ?_, ?_⟩
  · intro c member
    rw [List.mem_singleton.mp member]
    exact some
  · exact fun i inside => ⟨0, List.mem_singleton_self 0, cost i inside⟩
  · intro i inside c member
    rw [List.mem_singleton.mp member, cost i inside]
    exact not_lt_self _
  · intro i first
    obtain rfl : i = 0 := by omega
    exact ⟨0, List.mem_singleton_self 0, formed.price_self some⟩

/-- A point that pays nothing is passed. -/
theorem Opening.pass {centers : List Nat} {next : Nat} {state : Points Value × Nat}
    (opening : Opening points centers next state) (inside : next < points.num)
    (free : (state.1.p next).cost = num 0) : Opening points centers (next + 1) state where
  alike := opening.alike
  count := opening.count
  inside := opening.inside
  apart := opening.apart
  paid := opening.paid
  least := opening.least
  covered i before := by
    rcases Nat.lt_succ_iff_lt_or_eq.mp before with earlier | rfl
    · exact opening.covered i earlier
    · obtain ⟨c, member, same⟩ := opening.paid i inside
      exact ⟨c, member, same ▸ free⟩

/-- The costs behind the opening of a center. -/
theorem cost_openCenter (alike : points.Alike other) (inside : j < points.num) :
    ((openCenter other i).p j).cost =
      if price points i j < (other.p j).cost then price points i j else (other.p j).cost := by
  rw [← price_alike alike]
  unfold openCenter price
  dsimp only
  rw [alike.num]
  by_cases less : binary32.mul (dist (other.p i) (other.p j) other.dim) (other.p j).weight <
      (other.p j).cost
  · rw [if_pos ⟨inside, less⟩, if_pos less]
  · rw [if_neg fun both => less both.2, if_neg less]

/-- A center is opened at a point that pays something. -/
theorem Opening.open_ {centers : List Nat} {next : Nat} {state : Points Value × Nat}
    (formed : Formed points) (opening : Opening points centers next state)
    (inside : next < points.num) (pays : num 0 < (state.1.p next).cost) :
    Opening points (centers ++ [next]) (next + 1) (openCenter state.1 next, state.2 + 1) where
  alike := opening.alike.trans (alike_openCenter state.1 next)
  count := by rw [opening.count, List.length_append, List.length_singleton]
  inside c member := by
    rcases List.mem_append.mp member with old | new
    · exact opening.inside c old
    · rw [List.mem_singleton.mp new]
      exact inside
  apart := by
    refine List.pairwise_append.mpr ⟨opening.apart, List.pairwise_singleton _ _, ?_⟩
    intro c old i new
    rw [List.mem_singleton.mp new]
    exact (formed.price_nonneg (opening.inside c old) inside).pos_of_not_lt
      (opening.least next inside c old) pays
  paid i known := by
    rw [cost_openCenter opening.alike known]
    split
    · exact ⟨next, List.mem_append_right _ (List.mem_singleton_self next), rfl⟩
    · obtain ⟨c, member, same⟩ := opening.paid i known
      exact ⟨c, List.mem_append_left _ member, same⟩
  least i known c member := by
    rw [cost_openCenter opening.alike known]
    rcases List.mem_append.mp member with old | new
    · have least := opening.least i known c old
      split
      · rename_i less
        exact fun below => least
          ((formed.price_nonneg (opening.inside c old) known).lt_trans below less)
      · exact least
    · rw [List.mem_singleton.mp new]
      split
      · exact not_lt_self _
      · assumption
  covered i before := by
    rcases Nat.lt_succ_iff_lt_or_eq.mp before with earlier | rfl
    · obtain ⟨c, member, free⟩ := opening.covered i earlier
      exact ⟨c, List.mem_append_left _ member, free⟩
    · exact ⟨i, List.mem_append_right _ (List.mem_singleton_self i), formed.price_self inside⟩

/-- At the price zero a center is opened wherever a point pays something. -/
theorem Opening.step {centers : List Nat} {next : Nat} {state : Points Value × Nat}
    (formed : Formed points) (opening : Opening points centers next state)
    (inside : next < points.num) {rand : Nat → Nat} (ranged : ∀ i, rand i ≤ intMax) :
    ∃ centers, Opening points centers (next + 1) (speedyStep rand (num 0) state next) := by
  obtain ⟨c, member, same⟩ := opening.paid next inside
  have nonneg : (state.1.p next).cost.Nonneg :=
    same ▸ formed.price_nonneg (opening.inside c member) inside
  obtain ⟨x, number⟩ := exists_random (ranged next)
  unfold speedyStep
  rcases nonneg.eq_or_lt with free | pays
  · rw [free, Format.zero_div_zero, if_neg not_lt_nan]
    exact ⟨centers, opening.pass inside free⟩
  · rw [Format.div_zero pays, number, if_pos num_lt_posInf]
    exact ⟨centers ++ [next], opening.open_ formed inside pays⟩

/-- At the price zero `pspeedy` opens as many centers as the points need. -/
theorem le_pspeedy_zero {kmin : Nat} (formed : Formed points) (some : 0 < points.num)
    (spread : Spread points kmin) {rand : Nat → Nat} (ranged : ∀ i, rand i ≤ intMax) :
    kmin ≤ (pspeedy points rand (num 0)).2.1 := by
  have opened : ∀ n ≤ points.num - 1, ∃ centers, Opening points centers (n + 1)
      ((List.range' 1 n).foldl (speedyStep rand (num 0)) (sendToFirst points, 1)) := by
    intro n bound
    induction n with
    | zero => exact ⟨[0], formed.opening some⟩
    | succ n ih =>
      obtain ⟨centers, opening⟩ := ih (by omega)
      rw [List.range'_1_concat, List.foldl_append, List.foldl_cons, List.foldl_nil, add_comm 1 n]
      exact opening.step formed (by omega) ranged
  obtain ⟨centers, opening⟩ := opened (points.num - 1) le_rfl
  have costless : Costless points centers :=
    ⟨opening.inside, opening.apart, fun i inside => opening.covered i (by omega)⟩
  unfold pspeedy
  dsimp only
  rw [opening.count]
  exact spread centers costless

end P3arsec.Streamcluster.Rounded
