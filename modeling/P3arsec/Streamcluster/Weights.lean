import P3arsec.Streamcluster.Stream

/-!
# The weights of the centers

`contcenters` moves each center step by step to the mean of its cluster and adds up the weights, in
whatever order the points are visited. No call changes the weights of a chunk as a whole, so the
centers that have been collected weigh as much as the points that have been read.
-/

namespace P3arsec.Streamcluster

open P3arsec.Lib

variable {𝕂 : Type} [Field 𝕂] [LinearOrder 𝕂]

namespace Points

variable (points : Points 𝕂)

/-- `contcenters` with the points in some order. -/
def contcentersIn (order : List Nat) : Points 𝕂 := order.foldl contcenter points

/-- Each point is assigned to a center, and a center to itself. -/
def Clustered : Prop :=
  ∀ i < points.num, (points.p i).assign < points.num ∧
    (points.p (points.p i).assign).assign = (points.p i).assign

/-- The points that are assigned to a center. -/
def cluster (c : Nat) : Finset Nat :=
  (Finset.range points.num).filter fun i => (points.p i).assign = c

/-- The weight of a set of points. -/
def weightOf (set : Finset Nat) : 𝕂 := ∑ i ∈ set, (points.p i).weight

/-- The weighted sum of a coordinate over a set of points. -/
def momentOf (set : Finset Nat) (ii : Nat) : 𝕂 :=
  ∑ i ∈ set, (points.p i).weight * (points.p i).coord ii

/-- The points of a cluster that have been visited, and its center. -/
def gathered (visited : Finset Nat) (c : Nat) : Finset Nat :=
  insert c (visited.filter fun i => (points.p i).assign = c)

/-- What `contcenters` has done when some points have been visited. -/
structure Partly (visited : Finset Nat) (moved : Points 𝕂) : Prop where
  num : moved.num = points.num
  dim : moved.dim = points.dim
  assign : ∀ i, (moved.p i).assign = (points.p i).assign
  others : ∀ i, (points.p i).assign ≠ i → moved.p i = points.p i
  weight : ∀ c < points.num, (points.p c).assign = c →
    (moved.p c).weight = points.weightOf (points.gathered visited c)
  coord : ∀ c < points.num, (points.p c).assign = c → ∀ ii < points.dim,
    (moved.p c).coord ii * (moved.p c).weight = points.momentOf (points.gathered visited c) ii

variable {points}

omit [LinearOrder 𝕂] in
/-- At the begin each center stands for itself. -/
theorem partly_begin : points.Partly ∅ points where
  num := rfl
  dim := rfl
  assign _ := rfl
  others _ _ := rfl
  weight c _ _ := by simp [weightOf, gathered]
  coord c _ _ ii _ := by simp [momentOf, gathered, mul_comm]

omit [Field 𝕂] [LinearOrder 𝕂] in
/-- A point gathers for no other center than its own. -/
theorem gathered_ne {visited : Finset Nat} {i c : Nat} (other : (points.p i).assign ≠ c) :
    points.gathered (insert i visited) c = points.gathered visited c := by
  unfold gathered
  rw [Finset.filter_insert, if_neg other]

omit [Field 𝕂] [LinearOrder 𝕂] in
/-- A center that is visited has been gathered before. -/
theorem gathered_self {visited : Finset Nat} {i c : Nat} (own : (points.p i).assign = i) :
    points.gathered (insert i visited) c = points.gathered visited c := by
  by_cases same : (points.p i).assign = c
  · obtain rfl : i = c := own.symm.trans same
    unfold gathered
    rw [Finset.filter_insert, if_pos own, Finset.insert_idem]
  · exact gathered_ne same

omit [Field 𝕂] [LinearOrder 𝕂] in
/-- Another point is gathered. -/
theorem gathered_insert {visited : Finset Nat} {i c : Nat} (same : (points.p i).assign = c) :
    points.gathered (insert i visited) c = insert i (points.gathered visited c) := by
  unfold gathered
  rw [Finset.filter_insert, if_pos same, Finset.insert_comm]

omit [Field 𝕂] [LinearOrder 𝕂] in
/-- When all points have been visited the cluster has been gathered. -/
theorem gathered_all {c : Nat} (inside : c < points.num) (own : (points.p c).assign = c) :
    points.gathered (Finset.range points.num) c = points.cluster c := by
  unfold gathered cluster
  exact Finset.insert_eq_self.mpr (Finset.mem_filter.mpr ⟨Finset.mem_range.mpr inside, own⟩)

variable [IsStrictOrderedRing 𝕂]

/-- What has been gathered has a weight. -/
theorem weightOf_gathered (weighted : points.Weighted) {visited : Finset Nat} {c : Nat}
    (known : visited ⊆ Finset.range points.num) (inside : c < points.num) :
    0 < points.weightOf (points.gathered visited c) := by
  apply Finset.sum_pos
  · intro i member
    rcases Finset.mem_insert.mp member with rfl | member
    · exact weighted i inside
    · exact weighted i (Finset.mem_range.mp (known (Finset.mem_filter.mp member).1))
  · exact ⟨c, Finset.mem_insert_self c _⟩

/-- A point is visited. -/
theorem partly_step (weighted : points.Weighted) (clustered : points.Clustered)
    {visited : Finset Nat} {moved : Points 𝕂} {i : Nat}
    (known : visited ⊆ Finset.range points.num) (inside : i < points.num) (fresh : i ∉ visited)
    (partly : points.Partly visited moved) :
    points.Partly (insert i visited) (moved.contcenter i) := by
  unfold contcenter
  rw [partly.assign i]
  by_cases own : (points.p i).assign = i
  · rw [if_neg (not_not.mpr own)]
    refine ⟨partly.num, partly.dim, partly.assign, partly.others, ?_, ?_⟩
    · intro c bound center
      rw [gathered_self own]
      exact partly.weight c bound center
    · intro c bound center
      rw [gathered_self own]
      exact partly.coord c bound center
  · rw [if_pos own, partly.others i own, partly.dim]
    obtain ⟨bound, center⟩ := clustered i inside
    generalize median : (points.p i).assign = m at own bound center ⊢
    have weight := partly.weight m bound center
    have outside : i ∉ points.gathered visited m := by
      intro member
      rcases Finset.mem_insert.mp member with same | member
      · exact own same.symm
      · exact fresh (Finset.mem_filter.mp member).1
    have positive : 0 < (moved.p m).weight := by
      rw [weight]
      exact weightOf_gathered weighted known bound
    have total : (moved.p m).weight + (points.p i).weight ≠ 0 :=
      ne_of_gt (add_pos positive (weighted i inside))
    have sum : (moved.p m).weight + (points.p i).weight =
        points.weightOf (points.gathered (insert i visited) m) := by
      rw [gathered_insert median, weight, weightOf, weightOf, Finset.sum_insert outside, add_comm]
    refine ⟨partly.num, rfl, ?_, ?_, ?_, ?_⟩
    · intro j
      dsimp only
      rw [Function.update_apply]
      split
      · rename_i here
        rw [here]
        exact partly.assign m
      · exact partly.assign j
    · intro j other
      have apart : j ≠ m := by
        rintro rfl
        exact other center
      dsimp only
      rw [Function.update_of_ne apart]
      exact partly.others j other
    · intro c inside own'
      dsimp only
      rw [Function.update_apply]
      split
      · rename_i here
        rw [here]
        exact sum
      · rename_i other
        rw [gathered_ne fun same => other (same.symm.trans median)]
        exact partly.weight c inside own'
    · intro c inside own' ii coordinate
      dsimp only
      rw [Function.update_apply]
      split
      · rename_i here
        have moment := partly.coord m bound center ii coordinate
        rw [here]
        dsimp only
        rw [if_pos coordinate, gathered_insert median, momentOf, Finset.sum_insert outside,
          ← momentOf, ← moment]
        field_simp
        ring
      · rename_i other
        rw [gathered_ne fun same => other (same.symm.trans median)]
        exact partly.coord c inside own' ii coordinate

/-- Some points are visited one after the other. -/
theorem partly_foldl (weighted : points.Weighted) (clustered : points.Clustered)
    {visited : Finset Nat} {moved : Points 𝕂} {order : List Nat} (nodup : order.Nodup)
    (fresh : ∀ i ∈ order, i ∉ visited) (inside : ∀ i ∈ order, i < points.num)
    (known : visited ⊆ Finset.range points.num) (partly : points.Partly visited moved) :
    points.Partly (visited ∪ order.toFinset) (moved.contcentersIn order) := by
  induction order generalizing visited moved with
  | nil =>
    rw [List.toFinset_nil, Finset.union_empty]
    exact partly
  | cons i order ih =>
    obtain ⟨single, nodup⟩ := List.nodup_cons.mp nodup
    have first := inside i List.mem_cons_self
    have step := partly_step weighted clustered known first (fresh i List.mem_cons_self) partly
    have others : ∀ j ∈ order, j ∉ insert i visited := by
      intro j member old
      rcases Finset.mem_insert.mp old with rfl | old
      · exact single member
      · exact fresh j (.tail i member) old
    have rest := ih nodup others (fun j member => inside j (.tail i member))
      (Finset.insert_subset (Finset.mem_range.mpr first) known) step
    rw [List.toFinset_cons, Finset.union_insert, ← Finset.insert_union]
    exact rest

/-- Whatever the order, `contcenters` moves each center to the mean of its cluster, gives it the
weight of its cluster, and leaves the other points as they are. -/
theorem contcentersIn_spec (weighted : points.Weighted) (clustered : points.Clustered)
    {order : List Nat} (perm : order.Perm (List.range points.num)) :
    (∀ c < points.num, (points.p c).assign = c →
        ((points.contcentersIn order).p c).weight = points.weightOf (points.cluster c) ∧
          ∀ ii < points.dim, ((points.contcentersIn order).p c).coord ii =
            points.momentOf (points.cluster c) ii / points.weightOf (points.cluster c)) ∧
      ∀ i < points.num, (points.p i).assign ≠ i →
        (points.contcentersIn order).p i = points.p i := by
  have partly := partly_foldl weighted clustered (perm.nodup_iff.mpr List.nodup_range)
    (fun i _ => Finset.notMem_empty i) (fun i member => List.mem_range.mp (perm.mem_iff.mp member))
    (Finset.empty_subset _) partly_begin
  have all : ∅ ∪ order.toFinset = Finset.range points.num := by
    ext i
    rw [Finset.empty_union, List.mem_toFinset, perm.mem_iff, List.mem_range, Finset.mem_range]
  rw [all] at partly
  refine ⟨fun c bound own => ?_, fun i _ => partly.others i⟩
  have weight := partly.weight c bound own
  have positive := weightOf_gathered weighted (Finset.Subset.refl _) bound
  rw [gathered_all bound own] at weight positive
  refine ⟨weight, fun ii coordinate => ?_⟩
  have moment := partly.coord c bound own ii coordinate
  rw [gathered_all bound own, weight] at moment
  exact eq_div_of_mul_eq (ne_of_gt positive) moment

omit [Field 𝕂] [LinearOrder 𝕂] [IsStrictOrderedRing 𝕂] in
/-- The medians are the points that are assigned to themselves. -/
theorem isAMedian_iff_own (clustered : points.Clustered) {c : Nat} :
    points.isAMedian c = true ↔ c < points.num ∧ (points.p c).assign = c := by
  rw [isAMedian_iff]
  constructor
  · rintro ⟨j, known, rfl⟩
    exact clustered j known
  · rintro ⟨known, own⟩
    exact ⟨c, known, own⟩

omit [LinearOrder 𝕂] [IsStrictOrderedRing 𝕂] in
/-- The clusters weigh as much as the points. -/
theorem sum_clusters (clustered : points.Clustered) :
    ∑ c ∈ Finset.range points.num with points.isAMedian c, points.weightOf (points.cluster c) =
      points.weightOf (Finset.range points.num) := by
  have maps : ∀ i ∈ Finset.range points.num, (points.p i).assign ∈
      (Finset.range points.num).filter fun c => points.isAMedian c = true := by
    intro i member
    have known := clustered i (Finset.mem_range.mp member)
    exact Finset.mem_filter.mpr ⟨Finset.mem_range.mpr known.1,
      (isAMedian_iff_own clustered).mpr known⟩
  exact Finset.sum_fiberwise_of_maps_to maps _

/-- The medians weigh as much as the points. -/
theorem sum_medians (weighted : points.Weighted) (clustered : points.Clustered) :
    ∑ c ∈ Finset.range points.num with points.isAMedian c, (points.contcenters.p c).weight =
      points.weightOf (Finset.range points.num) := by
  rw [← sum_clusters clustered]
  refine Finset.sum_congr rfl fun c member => ?_
  obtain ⟨known, own⟩ := (isAMedian_iff_own clustered).mp (Finset.mem_filter.mp member).2
  exact ((contcentersIn_spec weighted clustered (List.Perm.refl _)).1 c known own).1

end Points

/-! ### A call keeps the weights -/

section Bag

variable {points other : Points 𝕂}

/-- The weights and the coordinates of the points, in any order. -/
def Points.bag (points : Points 𝕂) : Multiset (𝕂 × (Nat → 𝕂)) :=
  (Multiset.range points.num).map fun i => ((points.p i).weight, (points.p i).coord)

/-- The points have been put in another order, and assigned in another way. -/
structure Points.Rearranged (points other : Points 𝕂) : Prop where
  /-- The number. -/
  num : other.num = points.num
  /-- The dimensionality. -/
  dim : other.dim = points.dim
  /-- The weights and the coordinates. -/
  bag : other.bag = points.bag

omit [Field 𝕂] [LinearOrder 𝕂] in
/-- Points are rearranged by the identity. -/
@[refl] theorem Points.Rearranged.refl (points : Points 𝕂) : points.Rearranged points :=
  ⟨rfl, rfl, rfl⟩

omit [Field 𝕂] [LinearOrder 𝕂] in
/-- Two rearrangements are one. -/
theorem Points.Rearranged.trans {third : Points 𝕂} (first : points.Rearranged other)
    (second : other.Rearranged third) : points.Rearranged third :=
  ⟨second.num.trans first.num, second.dim.trans first.dim, second.bag.trans first.bag⟩

omit [Field 𝕂] [LinearOrder 𝕂] in
/-- Points that are alike are rearranged by the identity. -/
theorem Points.Alike.rearranged (alike : Points.Alike points other) :
    points.Rearranged other := by
  refine ⟨alike.num, alike.dim, ?_⟩
  unfold Points.bag
  rw [alike.num]
  exact Multiset.map_congr rfl fun i _ => by rw [alike.weight, alike.coord]

omit [Field 𝕂] [LinearOrder 𝕂] in
/-- An exchange keeps the entries of the array. -/
theorem map_exchange {ι κ : Type} (f : ι → κ) (p : Nat → ι) {n i j : Nat} (first : i < n)
    (second : j < n) :
    (Multiset.range n).map (fun x => f (exchange p i j x)) =
      (Multiset.range n).map fun x => f (p x) := by
  have swapped : (Multiset.range n).map (Equiv.swap j i) = Multiset.range n := by
    refine (Multiset.Nodup.ext ((Multiset.nodup_range n).map (Equiv.swap j i).injective)
      (Multiset.nodup_range n)).mpr fun x => ?_
    have inside : ∀ x < n, Equiv.swap j i x < n := by
      intro x known
      rw [Equiv.swap_apply_def]
      split_ifs
      · exact first
      · exact second
      · exact known
    simp only [Multiset.mem_map, Multiset.mem_range]
    constructor
    · rintro ⟨y, known, rfl⟩
      exact inside y known
    · intro known
      exact ⟨Equiv.swap j i x, inside x known, Equiv.swap_apply_self j i x⟩
  have entry : ∀ x, f (exchange p i j x) = f (p (Equiv.swap j i x)) := by
    intro x
    rw [exchange_eq, Equiv.swap_apply_def]
  simp only [entry]
  calc
    (Multiset.range n).map (fun x => f (p (Equiv.swap j i x))) =
        ((Multiset.range n).map (Equiv.swap j i)).map fun x => f (p x) := by
      rw [Multiset.map_map]
      rfl
    _ = (Multiset.range n).map fun x => f (p x) := by rw [swapped]

omit [Field 𝕂] [LinearOrder 𝕂] in
/-- The points in random order. -/
theorem rearranged_shuffle (rand : Nat → Nat) : points.Rearranged (points.shuffle rand) := by
  refine ⟨rfl, rfl, ?_⟩
  unfold Points.bag Points.shuffle
  dsimp only
  unfold shuffle
  apply foldl_keeps fun q : Nat → Point 𝕂 =>
    (Multiset.range points.num).map (fun i => ((q i).weight, (q i).coord)) =
      (Multiset.range points.num).map fun i => ((points.p i).weight, (points.p i).coord)
  · intro q same i member
    have below : i < points.num - 1 := List.mem_range.mp member
    have small := Nat.mod_lt (rand i) (show points.num - i > 0 by omega)
    rw [← same]
    exact map_exchange (fun point : Point 𝕂 => (point.weight, point.coord)) q (by omega) (by omega)
  · rfl

omit [LinearOrder 𝕂] in
/-- The weight of all points. -/
theorem weightOf_bag (points : Points 𝕂) :
    points.weightOf (Finset.range points.num) = (points.bag.map Prod.fst).sum := by
  unfold Points.bag Points.weightOf
  rw [Multiset.map_map]
  rfl

/-- Points with the same weights have weights. -/
theorem weighted_of_bag (same : other.bag = points.bag) (weighted : points.Weighted) :
    other.Weighted := by
  intro i inside
  have member : ((other.p i).weight, (other.p i).coord) ∈ other.bag :=
    Multiset.mem_map_of_mem _ (Multiset.mem_range.mpr inside)
  rw [same] at member
  obtain ⟨j, bound, entry⟩ := Multiset.mem_map.mp member
  rw [← (Prod.mk.inj entry).1]
  exact weighted j (Multiset.mem_range.mp bound)

/-- `pspeedy` changes assignments and costs only. -/
theorem alike_pspeedy (rand : Nat → Nat) (z : 𝕂) :
    Points.Alike points (points.pspeedy rand z).1 := by
  apply foldl_keeps fun state : Points 𝕂 × Nat => Points.Alike points state.1
  · intro state alike i _
    unfold Points.speedyStep
    split
    · exact alike.trans (Points.alike_openCenter i)
    · exact alike
  · exact Points.alike_sendToFirst

end Bag

namespace Kmedian

variable {kmedian : Kmedian 𝕂} {s next : State 𝕂} {points : Points 𝕂} {k : Nat}

/-- `pspeedy` keeps the points. -/
theorem rearranged_seed (rand : Nat → Nat) (points : Points 𝕂) (s : State 𝕂) :
    points.Rearranged (seed rand points s).st.points :=
  (alike_pspeedy rand s.z).rearranged

variable [IsStrictOrderedRing 𝕂]

/-- A call of `pgain` changes assignments and costs only. -/
theorem alike_gain (inv : Inv kmedian points k s) {choice : kmedian.Choice} {accurate : Bool}
    (phase : s.phase = .gain accurate) (moves : kmedian.stepGain choice accurate s = some next) :
    Points.Alike s.st.points next.st.points := by
  obtain ⟨running, positive, -⟩ := inv.gaining_of phase
  obtain ⟨x, st, -, -, chosen, -, rfl⟩ | ⟨-, rfl⟩ := stepGain_cases running positive moves
  · exact chosen.alike
  · exact Points.Alike.refl _

/-- No step changes the weights and the coordinates as a whole. -/
theorem rearranged_step (inv : Inv kmedian points k s) {choice : kmedian.Choice}
    (moves : kmedian.step choice s = some next) :
    s.st.points.Rearranged next.st.points := by
  unfold Kmedian.step at moves
  split at moves
  · cases moves
    unfold stepBegin
    dsimp only
    split
    · refine Points.Alike.rearranged ⟨rfl, rfl, fun i => ?_, fun i => ?_⟩
      · dsimp only
        split <;> rfl
      · dsimp only
        split <;> rfl
    · exact (rearranged_shuffle _).trans (rearranged_seed _ _ _)
  · cases moves
    unfold stepRetry
    split
    · exact rearranged_seed _ _ _
    · rfl
  · cases moves
    unfold stepLower
    dsimp only
    split
    · split
      · exact (rearranged_shuffle _).trans (rearranged_seed _ _ _)
      · exact (rearranged_shuffle _).trans (rearranged_seed _ _ _)
    · rfl
  · cases moves
    rfl
  · cases moves
    unfold stepTest
    split
    · rfl
    · split
      · rfl
      · rfl
  · rename_i accurate phase
    exact (alike_gain inv phase moves).rearranged
  · cases moves
    unfold stepAdjust
    dsimp only
    split_ifs <;> rfl
  · exact nomatch moves
  · exact nomatch moves

/-- A call does not change the weights and the coordinates as a whole. -/
theorem Reached.rearranged (weighted : points.Weighted) (reached : Reached kmedian points k s) :
    points.Rearranged s.st.points := by
  induction reached with
  | start begins =>
    rw [begins]
    exact ⟨rfl, rfl, rfl⟩
  | step reached moves ih =>
    obtain ⟨choice, moves⟩ := moves
    exact ih.trans (rearranged_step (Reached.inv weighted reached) moves)

/-- A call returns a clustering of points that have weights. -/
theorem Returns.clustered (weighted : points.Weighted) (returns : kmedian.Returns points k s) :
    s.st.points.Clustered ∧ s.st.points.Weighted := by
  have known := returns.cases weighted
  obtain ⟨reached, phase⟩ := returns
  have bag := (reached.rearranged weighted).bag
  cases reached.inv weighted with
  | begin => rcases phase with phase | phase <;> cases phase
  | few _ bound num kfinal own =>
    have clustered : s.st.points.Clustered := by
      intro i inside
      have here := own i (num ▸ inside)
      rw [here, here]
      exact ⟨inside, rfl⟩
    exact ⟨clustered, weighted_of_bag bag weighted⟩
  | seeding other =>
    rcases phase with phase | phase <;> simp [phase] at other
  | running other many num running cost =>
    refine ⟨fun i inside => ?_, running.weighted⟩
    have formed := running.valid.formed
    have open_ := formed.assign i (Finset.mem_range.mpr inside)
    exact ⟨Finset.mem_range.mp (formed.opened open_), formed.own _ open_⟩
  | gaining other =>
    rcases phase with phase | phase <;> simp [phase] at other

/-- After a call the medians weigh as much as the points. -/
theorem Returns.weight (weighted : points.Weighted) (returns : kmedian.Returns points k s) :
    ∑ c ∈ Finset.range s.st.points.num with s.st.points.isAMedian c,
        (s.st.points.contcenters.p c).weight =
      points.weightOf (Finset.range points.num) := by
  obtain ⟨clustered, weighted'⟩ := returns.clustered weighted
  rw [Points.sum_medians weighted' clustered, weightOf_bag, (returns.1.rearranged weighted).bag,
    ← weightOf_bag]

end Kmedian

/-! ### The centers of a stream -/

/-- The weight of the collected centers. -/
def Centers.total (centers : Centers 𝕂) : 𝕂 := ∑ j ∈ Finset.range centers.num, centers.weight j

/-- The collected centers have weights. -/
def Centers.Weighted (centers : Centers 𝕂) : Prop := ∀ j < centers.num, 0 < centers.weight j

/-- The collected centers as points, with any assignment. -/
def Centers.points (centers : Centers 𝕂) (dim : Nat) (assign : Nat → Nat) (cost : Nat → 𝕂) :
    Points 𝕂 :=
  ⟨centers.num, dim, fun j => ⟨centers.weight j, centers.coord j, assign j, cost j⟩⟩

section Copy

variable {points : Points 𝕂} {centersize offset : Nat} {centers copied : Centers 𝕂}

/-- A median is copied with its weight. -/
theorem copycenter_total (positive : ∀ i, points.isAMedian i = true → 0 < (points.p i).weight)
    {i : Nat} (copies : copycenter centersize points offset centers i = some copied)
    (weighted : centers.Weighted) :
    copied.total = centers.total + (if points.isAMedian i then (points.p i).weight else 0) ∧
      copied.Weighted := by
  unfold copycenter at copies
  split at copies
  · rename_i median
    split at copies
    · cases copies
      constructor
      · unfold Centers.total
        dsimp only
        rw [Finset.sum_range_succ, Function.update_self, if_pos median]
        congr 1
        refine Finset.sum_congr rfl fun j member => ?_
        rw [Function.update_of_ne (ne_of_lt (Finset.mem_range.mp member))]
      · intro j bound
        dsimp only at bound ⊢
        rw [Function.update_apply]
        split
        · exact positive i median
        · exact weighted j (by omega)
    · exact nomatch copies
  · rename_i other
    cases copies
    rw [if_neg other, add_zero]
    exact ⟨rfl, weighted⟩

/-- The medians are copied with their weights. -/
theorem copycenters_total (positive : ∀ i, points.isAMedian i = true → 0 < (points.p i).weight)
    (copies : copycenters centersize points centers offset = some copied)
    (weighted : centers.Weighted) :
    copied.total = centers.total +
        ∑ c ∈ Finset.range points.num with points.isAMedian c, (points.p c).weight ∧
      copied.Weighted := by
  have loop : ∀ (list : List Nat) (centers : Centers 𝕂), centers.Weighted →
      list.foldlM (copycenter centersize points offset) centers = some copied →
      copied.total = centers.total +
        (list.map fun i => if points.isAMedian i then (points.p i).weight else 0).sum ∧
        copied.Weighted := by
    intro list
    induction list with
    | nil =>
      intro centers weighted copies
      cases copies
      exact ⟨(add_zero _).symm, weighted⟩
    | cons i list ih =>
      intro centers weighted copies
      rw [List.foldlM_cons] at copies
      obtain ⟨middle, copies, rest⟩ := Option.bind_eq_some_iff.mp copies
      obtain ⟨total, weighted⟩ := copycenter_total positive copies weighted
      obtain ⟨total', weighted⟩ := ih middle weighted rest
      refine ⟨?_, weighted⟩
      rw [total', total, List.map_cons, List.sum_cons, add_assoc]
  obtain ⟨total, weighted⟩ := loop _ centers weighted copies
  refine ⟨?_, weighted⟩
  rw [total, Finset.sum_filter]
  rfl

end Copy

omit [LinearOrder 𝕂] in
/-- `contcenters` does not change the medians. -/
theorem isAMedian_contcenters (points : Points 𝕂) (c : Nat) :
    points.contcenters.isAMedian c = points.isAMedian c := by
  obtain ⟨num, assign⟩ := contcenters_assign points
  rw [Bool.eq_iff_iff, isAMedian_iff, isAMedian_iff, num]
  simp only [assign]

namespace Kmedian

variable {kmedian : Kmedian 𝕂} [IsStrictOrderedRing 𝕂]

/-- A chunk adds the number of its points to the weight of the centers. -/
theorem readChunk_total {s : State 𝕂} {k idOffset : Nat} {points : Points 𝕂}
    {centersize : Nat} {centers collected : Centers 𝕂} {next offset : Nat}
    (weights : ∀ i, (points.p i).weight = 1) (returns : kmedian.Returns points k s)
    (weighted : centers.Weighted)
    (reads : readChunk centersize s centers idOffset = .running next collected offset) :
    collected.total = centers.total + points.num ∧ collected.Weighted ∧
      offset = idOffset + points.num := by
  have heavy : points.Weighted := fun i _ => by
    rw [weights i]
    exact one_pos
  obtain ⟨clustered, heavy'⟩ := returns.clustered heavy
  have weight := returns.weight heavy
  have ones : points.weightOf (Finset.range points.num) = points.num := by
    simp [Points.weightOf, weights]
  have num : s.st.points.contcenters.num = points.num :=
    (contcenters_assign s.st.points).1.trans (returns.cases heavy).1
  unfold readChunk at reads
  dsimp only at reads
  split at reads
  · exact nomatch reads
  split at reads
  · rename_i copied copies
    cases reads
    have positive : ∀ i, s.st.points.contcenters.isAMedian i = true →
        0 < (s.st.points.contcenters.p i).weight := by
      intro c median
      rw [isAMedian_contcenters] at median
      obtain ⟨known, own⟩ := (Points.isAMedian_iff_own clustered).mp median
      have spec := Points.contcentersIn_spec heavy' clustered (List.Perm.refl _)
      have mass := (spec.1 c known own).1
      rw [← Points.gathered_all known own] at mass
      refine lt_of_lt_of_eq ?_ mass.symm
      exact Points.weightOf_gathered heavy' (Finset.Subset.refl _) known
    obtain ⟨total, weighted⟩ := copycenters_total positive copies weighted
    refine ⟨?_, weighted, by rw [num]⟩
    rw [total, ← ones, ← weight]
    congr 1
    rw [(contcenters_assign s.st.points).1]
    refine Finset.sum_congr (Finset.filter_congr fun c _ => ?_) fun _ _ => rfl
    rw [isAMedian_contcenters]
  · exact nomatch reads

/-- The centers that have been collected weigh as much as the points that have been read. -/
theorem Chunks.total {chunksize centersize : Nat} {condition : Points 𝕂 → Nat → Prop}
    {stream : Stream 𝕂} (chunks : kmedian.Chunks chunksize centersize condition stream) :
    ∀ k centers idOffset, stream = .running k centers idOffset →
      centers.total = idOffset ∧ centers.Weighted := by
  induction chunks with
  | start centers none =>
    rintro k' centers' idOffset' ⟨⟩
    refine ⟨?_, fun j bound => ?_⟩
    · rw [Centers.total, none, Finset.range_zero, Finset.sum_empty, Nat.cast_zero]
    · omega
  | chunk before size weights returns meets ih =>
    intro k' centers' idOffset' reads
    obtain ⟨total, weighted⟩ := ih _ _ _ rfl
    obtain ⟨total', weighted, offset⟩ := readChunk_total weights returns weighted reads
    refine ⟨?_, weighted⟩
    rw [total', total, offset, Nat.cast_add]

/-- `contcenters` moves each center of a clustering to the mean of its cluster and gives it the
weight of its cluster, in whatever order the points are visited. In a stream the centers that have
been collected weigh as much as the points that have been read, and so do the last medians. -/
theorem weights_conserved (kmedian : Kmedian 𝕂) :
    (∀ points : Points 𝕂, points.Weighted → points.Clustered →
        ∀ order : List Nat, order.Perm (List.range points.num) →
        ∀ c < points.num, (points.p c).assign = c →
          ((points.contcentersIn order).p c).weight = points.weightOf (points.cluster c) ∧
          ∀ ii < points.dim, ((points.contcentersIn order).p c).coord ii =
            points.momentOf (points.cluster c) ii / points.weightOf (points.cluster c)) ∧
      ∀ chunksize centersize k centers idOffset,
        kmedian.Chunks chunksize centersize (fun _ _ => True) (.running k centers idOffset) →
        centers.total = idOffset ∧
        ∀ dim assign cost s, kmedian.Returns (centers.points dim assign cost) k s →
          ∑ c ∈ Finset.range s.st.points.num with s.st.points.isAMedian c,
            (s.st.points.contcenters.p c).weight = idOffset := by
  constructor
  · intro points weighted clustered order perm
    exact (Points.contcentersIn_spec weighted clustered perm).1
  · intro chunksize centersize k centers idOffset chunks
    obtain ⟨total, weighted⟩ := chunks.total k centers idOffset rfl
    refine ⟨total, fun dim assign cost s returns => ?_⟩
    have heavy : (centers.points dim assign cost).Weighted := weighted
    rw [returns.weight heavy, ← total]
    rfl

section Sample

/-- Points at 0, 3 and 6 on a line with weights 1, 2 and 3, all assigned to the second one. -/
def threeAssigned : Points ℚ := ⟨3, 1, fun i => ⟨i + 1, fun _ => 3 * i, 1, 0⟩⟩

/-- The center moves from 3 to 4, and a stream of two points has centers of weight 2. -/
theorem weights_conserved_sample :
    ((threeAssigned.contcentersIn [2, 0, 1]).p 1).weight =
        threeAssigned.weightOf (threeAssigned.cluster 1) ∧
      ∃ centers, fewKmedian.Chunks 2 2 (fun _ _ => True) (.running 0 centers 2) ∧
        centers.num = 2 ∧ centers.total = (2 : Nat) := by
  have weighted : threeAssigned.Weighted := fun i _ => Nat.cast_add_one_pos i
  have clustered : threeAssigned.Clustered := fun _ _ => ⟨show 1 < 3 by decide, rfl⟩
  have order : [2, 0, 1].Perm (List.range threeAssigned.num) := by decide
  have mean := (weights_conserved fewKmedian).1 threeAssigned weighted clustered _ order 1
    (by decide) rfl
  refine ⟨mean.1, ?_⟩
  have chunks : fewKmedian.Chunks 2 2 (fun _ _ => True)
      (readChunk 2 (twoState 0) ⟨0, fun _ _ => 0, fun _ => 0, fun _ => 0⟩ 0) :=
    .chunk (.start _ rfl) le_rfl (fun _ => rfl) (twoState_returns 0) trivial
  have reads : ∃ centers, readChunk 2 (twoState 0) ⟨0, fun _ _ => 0, fun _ => 0, fun _ => 0⟩ 0 =
      .running 0 centers 2 ∧ centers.num = 2 := ⟨_, rfl, rfl⟩
  obtain ⟨centers, same, num⟩ := reads
  rw [same] at chunks
  exact ⟨centers, chunks, num, ((weights_conserved fewKmedian).2 2 2 0 centers 2 chunks).1⟩

end Sample

end Kmedian

end P3arsec.Streamcluster
