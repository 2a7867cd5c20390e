import P3arsec.Lib.FacilityLocation

/-!
# Points and clusterings

The points of a chunk of the stream, with the median each one is assigned to, and the array of
marks of the medians that are open. Numbers are elements of an ordered field. A clustering is a
plan of the facility location problem in which the price of a median for a point is the weighted
squared distance.
-/

namespace P3arsec.Streamcluster

open P3arsec.Lib

variable {𝕂 : Type} [Field 𝕂] [LinearOrder 𝕂]

/-- `Point`. -/
structure Point (𝕂 : Type) where
  /-- How many points of the stream it stands for. -/
  weight : 𝕂
  /-- The coordinates. -/
  coord : Nat → 𝕂
  /-- The number of the point that it is assigned to. -/
  assign : Nat
  /-- The cost of that assignment, weight times distance. -/
  cost : 𝕂

/-- `Points`. -/
structure Points (𝕂 : Type) where
  /-- Number of points. -/
  num : Nat
  /-- Dimensionality. -/
  dim : Nat
  /-- The array. -/
  p : Nat → Point 𝕂

/-- `dist`: the squared Euclidean distance. -/
def dist (p1 p2 : Point 𝕂) (dim : Nat) : 𝕂 :=
  (List.range dim).foldl (fun result i =>
    result + (p1.coord i - p2.coord i) * (p1.coord i - p2.coord i)) 0

/-- The points with the array `is_center` and the count of centers. -/
structure Clustering (𝕂 : Type) where
  /-- The points. -/
  points : Points 𝕂
  /-- `is_center`. -/
  isCenter : Nat → Bool
  /-- `numcenters`. -/
  numcenters : Nat

omit [LinearOrder 𝕂] in
/-- The distance is a sum of squares. -/
theorem dist_eq_sum (p1 p2 : Point 𝕂) (dim : Nat) :
    dist p1 p2 dim = ∑ i ∈ Finset.range dim, (p1.coord i - p2.coord i) ^ 2 := by
  unfold dist
  induction dim with
  | zero => rfl
  | succ dim ih =>
    rw [List.range_succ, List.foldl_append, ih, Finset.sum_range_succ, List.foldl_cons,
      List.foldl_nil, sq]

omit [LinearOrder 𝕂] in
/-- A point has no distance from itself. -/
@[simp] theorem dist_self (p : Point 𝕂) (dim : Nat) : dist p p dim = 0 := by
  simp [dist_eq_sum]

omit [LinearOrder 𝕂] in
/-- The distance depends on the coordinates only. -/
theorem dist_congr {p1 p2 q1 q2 : Point 𝕂} {dim : Nat} (first : ∀ i < dim, p1.coord i = q1.coord i)
    (second : ∀ i < dim, p2.coord i = q2.coord i) : dist p1 p2 dim = dist q1 q2 dim := by
  rw [dist_eq_sum, dist_eq_sum]
  apply Finset.sum_congr rfl
  intro i member
  rw [first i (Finset.mem_range.mp member), second i (Finset.mem_range.mp member)]

section Order

variable [IsStrictOrderedRing 𝕂]

/-- A distance is not negative. -/
theorem dist_nonneg (p1 p2 : Point 𝕂) (dim : Nat) : 0 ≤ dist p1 p2 dim := by
  rw [dist_eq_sum]
  exact Finset.sum_nonneg fun i _ => sq_nonneg _

/-- Points at distance zero have the same coordinates. -/
theorem coord_eq_of_dist {p1 p2 : Point 𝕂} {dim : Nat} (zero : dist p1 p2 dim = 0) :
    ∀ i < dim, p1.coord i = p2.coord i := by
  intro i inside
  rw [dist_eq_sum, Finset.sum_eq_zero_iff_of_nonneg fun i _ => sq_nonneg _] at zero
  have square := zero i (Finset.mem_range.mpr inside)
  exact sub_eq_zero.mp (pow_eq_zero_iff two_ne_zero |>.mp square)

end Order

namespace Points

/-- The cost of a point when it is assigned to another one. -/
def price (points : Points 𝕂) (facility client : Nat) : 𝕂 :=
  dist (points.p client) (points.p facility) points.dim * (points.p client).weight

/-- Every point stands for something: the weights are one at first, and sums of weights
later. -/
def Weighted (points : Points 𝕂) : Prop := ∀ i < points.num, 0 < (points.p i).weight

/-- Weighted squared distances are prices. -/
theorem prices [IsStrictOrderedRing 𝕂] {points : Points 𝕂} (weighted : points.Weighted) :
    Plan.Prices (Finset.range points.num) points.price := by
  constructor
  · intro facility _ client member
    exact mul_nonneg (dist_nonneg _ _ _) (weighted client (Finset.mem_range.mp member)).le
  · intro facility _
    simp [price]
  · intro facility _ client member zero other _
    have weight := weighted client (Finset.mem_range.mp member)
    have apart := (mul_eq_zero.mp zero).resolve_right (ne_of_gt weight)
    unfold price
    rw [dist_congr (fun _ _ => rfl) (coord_eq_of_dist apart)]

end Points

namespace Clustering

variable (st : Clustering 𝕂)

/-- The clustering as a plan: the points are the clients and the centers the open facilities. -/
def plan : Plan Nat 𝕂 where
  clients := Finset.range st.points.num
  opened := (Finset.range st.points.num).filter fun i => st.isCenter i = true
  assign i := (st.points.p i).assign
  cost i := (st.points.p i).cost

/-- The total cost: the price of the centers and the costs of the points. -/
def total (z : 𝕂) : 𝕂 :=
  z * st.numcenters + ∑ i ∈ Finset.range st.points.num, (st.points.p i).cost

/-- Each point is assigned to a center at the weighted distance, each center to itself at no
cost, and the centers are counted. -/
structure Valid : Prop where
  /-- The assignment and the costs. -/
  formed : st.plan.WellFormed st.points.price
  /-- The count. -/
  count : st.numcenters = st.plan.opened.card

/-- The local move to `x` on a clustering. -/
def move (z : 𝕂) (x : Nat) : Clustering 𝕂 where
  points := { st.points with
    p := fun i =>
      if i < st.points.num ∧ st.plan.Moves z (st.points.price x) i then
        { st.points.p i with cost := st.points.price x i, assign := x }
      else st.points.p i }
  isCenter i :=
    if i < st.points.num then
      i == x || st.isCenter i && !decide (st.plan.Closes z (st.points.price x) i)
    else st.isCenter i
  numcenters := st.numcenters + 1 - (st.plan.closing z (st.points.price x)).card

omit [LinearOrder 𝕂] in
/-- The total cost is that of the plan. -/
theorem total_eq {st : Clustering 𝕂} (valid : st.Valid) (z : 𝕂) : st.total z = st.plan.total z := by
  rw [total, Plan.total, valid.count]
  rfl

variable {st} {z : 𝕂} {x : Nat}

omit [Field 𝕂] [LinearOrder 𝕂] in
/-- The open facilities are the centers. -/
theorem mem_opened {i : Nat} : i ∈ st.plan.opened ↔ i < st.points.num ∧ st.isCenter i = true := by
  rw [plan, Finset.mem_filter, Finset.mem_range]

/-- The centers behind a move. -/
theorem isCenter_move {i : Nat} (known : i < st.points.num) :
    (st.move z x).isCenter i = true ↔
      i = x ∨ st.isCenter i = true ∧ ¬st.plan.Closes z (st.points.price x) i := by
  unfold move
  simp [known]

/-- The points behind a move. -/
theorem p_move (st : Clustering 𝕂) (z : 𝕂) (x : Nat) {i : Nat} (known : i < st.points.num) :
    (st.move z x).points.p i = if st.plan.Moves z (st.points.price x) i then
      { st.points.p i with cost := st.points.price x i, assign := x } else st.points.p i := by
  simp only [move, known, true_and]

/-- The move on the clustering is the move on its plan. -/
theorem move_agrees (st : Clustering 𝕂) (z : 𝕂) (inside : x < st.points.num) :
    Plan.Agrees (st.plan.after z (st.points.price x) x) (st.move z x).plan := by
  constructor
  · rfl
  · ext i
    rw [mem_opened, Plan.after, Finset.mem_insert, Finset.mem_sdiff, mem_opened, Plan.closing,
      Finset.mem_filter, mem_opened]
    constructor
    · rintro ⟨inRange, marked⟩
      have known : i < st.points.num := inRange
      rcases (isCenter_move known).mp marked with here | ⟨center, stays⟩
      · exact .inl here
      · exact .inr ⟨⟨known, center⟩, fun closes => stays closes.2⟩
    · rintro (rfl | ⟨⟨known, center⟩, stays⟩)
      · exact ⟨inside, (isCenter_move inside).mpr (.inl rfl)⟩
      · have kept : ¬st.plan.Closes z (st.points.price x) i :=
          fun closes => stays ⟨⟨known, center⟩, closes⟩
        exact ⟨known, (isCenter_move known).mpr (.inr ⟨center, kept⟩)⟩
  · intro i member
    show ((st.move z x).points.p i).assign = if _ then _ else _
    rw [p_move st z x (Finset.mem_range.mp member)]
    split <;> rfl
  · intro i member
    show ((st.move z x).points.p i).cost = if _ then _ else _
    rw [p_move st z x (Finset.mem_range.mp member)]
    split <;> rfl

/-- The move changes no weight and no coordinate. -/
theorem price_move (facility client : Nat) :
    (st.move z x).points.price facility client = st.points.price facility client := by
  have coord : ∀ i, ((st.move z x).points.p i).coord = (st.points.p i).coord := by
    intro i
    simp only [move]
    split <;> rfl
  have weight : ((st.move z x).points.p client).weight = (st.points.p client).weight := by
    simp only [move]
    split <;> rfl
  unfold Points.price
  rw [weight, dist_congr (fun i _ => congrFun (coord client) i)
    (fun i _ => congrFun (coord facility) i)]
  rfl

variable [IsStrictOrderedRing 𝕂]

/-- The move keeps a clustering valid. -/
theorem Valid.move (valid : st.Valid) (weighted : st.points.Weighted) (positive : 0 < z)
    (inside : x < st.points.num) : (st.move z x).Valid := by
  have laws := Points.prices weighted
  have member : x ∈ st.plan.clients := Finset.mem_range.mpr inside
  have agrees := st.move_agrees z inside
  have count := Plan.card_after st.plan z (st.points.price x)
    (valid.formed.reopens laws positive)
  constructor
  · have same : (st.move z x).points.price = st.points.price := by
      funext facility client
      exact price_move facility client
    rw [same]
    exact agrees.wellFormed (valid.formed.after laws positive member)
  · rw [agrees.opened]
    show st.numcenters + 1 - _ = _
    have counted := valid.count
    omega

/-- The change of the total cost in the move is the gain of the plan. -/
theorem Valid.total_move (valid : st.Valid) (weighted : st.points.Weighted) (positive : 0 < z)
    (inside : x < st.points.num) :
    (st.move z x).total z - st.total z = st.plan.gain z (st.points.price x) := by
  have laws := Points.prices weighted
  rw [total_eq (valid.move weighted positive inside), total_eq valid,
    (st.move_agrees z inside).total]
  exact Plan.total_after valid.formed.assign (valid.formed.reopens laws positive)

end Clustering

end P3arsec.Streamcluster
