import P3arsec.Streamcluster.Kmedian

/-!
# The cost in the local search

`pspeedy` leaves a well formed plan (`pspeedy_seeded`): a center is opened only at a point that pays
something, so that the open centers pay nothing and serve themselves. `pgain` keeps the clustering
valid and returns what it saves. With the price of a median, the cost changes by the number of
medians. `Sound` is the invariant of `pkmedian` in these terms.
-/

namespace P3arsec.Streamcluster

open P3arsec.Lib

/-- A loop that marks entries. -/
theorem foldl_mark (entry : Nat → Nat) (n c : Nat) :
    (List.range n).foldl (fun marks i => Function.update marks (entry i) true)
      (fun _ => false) c = true ↔ ∃ i < n, entry i = c := by
  induction n with
  | zero => simp
  | succ n ih =>
    rw [List.range_succ, List.foldl_append, List.foldl_cons, List.foldl_nil, Function.update_apply]
    split
    · rename_i here
      exact iff_of_true rfl ⟨n, Nat.lt_succ_self n, here.symm⟩
    · rename_i away
      rw [ih]
      constructor
      · rintro ⟨i, below, same⟩
        exact ⟨i, by omega, same⟩
      · rintro ⟨i, below, same⟩
        have other : i ≠ n := by
          rintro rfl
          exact away same.symm
        exact ⟨i, by omega, same⟩

section Shuffle

variable {ι : Type}

/-- An exchange takes its entries from the array. -/
theorem exchange_eq (p : Nat → ι) (i j : Nat) :
    exchange p i j = fun x => p (if x = j then i else if x = i then j else x) := by
  funext x
  unfold exchange
  rw [Function.update_apply, Function.update_apply]
  split_ifs <;> rfl

/-- The array in random order has entries of the old one. -/
theorem shuffle_eq (rand : Nat → Nat) (num : Nat) (p : Nat → ι) :
    ∃ σ : Nat → Nat, (∀ i < num, σ i < num) ∧ shuffle rand num p = fun i => p (σ i) := by
  unfold shuffle
  apply foldl_keeps fun q : Nat → ι =>
    ∃ σ : Nat → Nat, (∀ i < num, σ i < num) ∧ q = fun i => p (σ i)
  · rintro q ⟨σ, inside, rfl⟩ i member
    have below : i < num - 1 := List.mem_range.mp member
    have other : rand i % (num - i) + i < num := by
      have small := Nat.mod_lt (rand i) (show num - i > 0 by omega)
      omega
    rw [exchange_eq]
    refine ⟨fun x => σ (if x = rand i % (num - i) + i then i
      else if x = i then rand i % (num - i) + i else x), fun x known => ?_, rfl⟩
    apply inside
    split_ifs
    · omega
    · exact other
    · exact known
  · exact ⟨id, fun i known => known, rfl⟩

end Shuffle

variable {𝕂 : Type} [Field 𝕂] [LinearOrder 𝕂]

omit [LinearOrder 𝕂] in
/-- A distance is the same both ways. -/
theorem dist_comm (p1 p2 : Point 𝕂) (dim : Nat) : dist p1 p2 dim = dist p2 p1 dim := by
  rw [dist_eq_sum, dist_eq_sum]
  apply Finset.sum_congr rfl
  intro i _
  ring

namespace Points

variable {points : Points 𝕂}

/-- All points are at one place. -/
def Flat (points : Points 𝕂) : Prop :=
  ∀ facility < points.num, ∀ client < points.num, points.price facility client = 0

/-- The points have kept their number, their weights and their coordinates. -/
structure Alike (points other : Points 𝕂) : Prop where
  /-- The number. -/
  num : other.num = points.num
  /-- The dimensionality. -/
  dim : other.dim = points.dim
  /-- The weights. -/
  weight : ∀ i, (other.p i).weight = (points.p i).weight
  /-- The coordinates. -/
  coord : ∀ i, (other.p i).coord = (points.p i).coord

namespace Alike

variable {other third : Points 𝕂}

omit [Field 𝕂] [LinearOrder 𝕂] in
/-- Points are like themselves. -/
theorem refl (points : Points 𝕂) : Alike points points := ⟨rfl, rfl, fun _ => rfl, fun _ => rfl⟩

omit [Field 𝕂] [LinearOrder 𝕂] in
/-- Points like others that are like third ones. -/
theorem trans (first : Alike points other) (second : Alike other third) : Alike points third :=
  ⟨second.num.trans first.num, second.dim.trans first.dim,
    fun i => (second.weight i).trans (first.weight i),
    fun i => (second.coord i).trans (first.coord i)⟩

omit [LinearOrder 𝕂] in
/-- The prices are the same. -/
theorem price (alike : Alike points other) : other.price = points.price := by
  funext facility client
  unfold Points.price
  rw [alike.weight, alike.dim, dist_congr (fun i _ => congrFun (alike.coord client) i)
    fun i _ => congrFun (alike.coord facility) i]

/-- Points like weighted ones are weighted. -/
theorem weighted (alike : Alike points other) (weighted : points.Weighted) : other.Weighted := by
  intro i known
  rw [alike.weight]
  rw [alike.num] at known
  exact weighted i known

omit [LinearOrder 𝕂] in
/-- Points like points at one place are at one place. -/
theorem flat (alike : Alike points other) (flat : points.Flat) : other.Flat := by
  intro facility known client known'
  rw [alike.num] at known known'
  rw [alike.price]
  exact flat facility known client known'

end Alike

/-- The points as clients, with some of them as open facilities. -/
def plan (points : Points 𝕂) (opened : Finset Nat) : Plan Nat 𝕂 where
  clients := Finset.range points.num
  opened := opened
  assign i := (points.p i).assign
  cost i := (points.p i).cost

/-- The points in another order are weighted. -/
theorem weighted_shuffle (weighted : points.Weighted) (rand : Nat → Nat) :
    (points.shuffle rand).Weighted := by
  obtain ⟨σ, inside, same⟩ := shuffle_eq rand points.num points.p
  intro i known
  have here : (points.shuffle rand).p i = points.p (σ i) := congrFun same i
  rw [here]
  exact weighted _ (inside i known)

omit [LinearOrder 𝕂] in
/-- The points in another order are at one place if they were. -/
theorem flat_shuffle (flat : points.Flat) (rand : Nat → Nat) : (points.shuffle rand).Flat := by
  obtain ⟨σ, inside, same⟩ := shuffle_eq rand points.num points.p
  intro facility known client known'
  have here : ∀ i, (points.shuffle rand).p i = points.p (σ i) := congrFun same
  have price : (points.shuffle rand).price facility client =
      points.price (σ facility) (σ client) := by
    unfold Points.price
    rw [here, here]
    rfl
  rw [price]
  exact flat _ (inside _ known) _ (inside _ known')

omit [LinearOrder 𝕂] in
/-- The points that are sent to the first one are the same. -/
theorem alike_sendToFirst : Alike points points.sendToFirst := by
  refine ⟨rfl, rfl, fun i => ?_, fun i => ?_⟩
  · unfold sendToFirst
    dsimp only
    split_ifs <;> rfl
  · unfold sendToFirst
    dsimp only
    split_ifs <;> rfl

/-- The points behind the opening of a center are the same. -/
theorem alike_openCenter (i : Nat) : Alike points (points.openCenter i) := by
  refine ⟨rfl, rfl, fun idx => ?_, fun idx => ?_⟩
  · unfold openCenter
    dsimp only
    split_ifs <;> rfl
  · unfold openCenter
    dsimp only
    split_ifs <;> rfl

omit [LinearOrder 𝕂] in
/-- The points are sent to the first one. -/
theorem formed_sendToFirst (some : 0 < points.num) :
    (points.sendToFirst.plan {0}).WellFormed points.price := by
  have here : ∀ idx < points.num, points.sendToFirst.p idx =
      { points.p idx with cost := points.price 0 idx, assign := 0 } := by
    intro idx known
    unfold sendToFirst
    exact if_pos known
  constructor
  · intro i member
    rw [Finset.mem_singleton.mp member]
    exact Finset.mem_range.mpr some
  · intro client member
    have same := here client (Finset.mem_range.mp member)
    show (points.sendToFirst.p client).assign ∈ ({0} : Finset Nat)
    rw [same]
    exact Finset.mem_singleton_self 0
  · intro client member
    have same := here client (Finset.mem_range.mp member)
    show (points.sendToFirst.p client).cost = points.price (points.sendToFirst.p client).assign _
    rw [same]
  · intro facility member
    rw [Finset.mem_singleton.mp member]
    show (points.sendToFirst.p 0).assign = 0
    rw [here 0 some]
  · intro facility member
    rw [Finset.mem_singleton.mp member]
    show (points.sendToFirst.p 0).cost = 0
    rw [here 0 some]
    simp [price]

variable [IsStrictOrderedRing 𝕂]

/-- A center is opened at a point that pays something. -/
theorem formed_openCenter {opened : Finset Nat} {prices : Nat → Nat → 𝕂} {i : Nat}
    (same : points.price = prices) (formed : (points.plan opened).WellFormed prices)
    (weighted : points.Weighted) (known : i < points.num) (pays : 0 < (points.p i).cost) :
    ((points.openCenter i).plan (insert i opened)).WellFormed prices ∧ i ∉ opened := by
  subst same
  have laws := prices weighted
  have here : ∀ idx < points.num, (points.openCenter i).p idx =
      if points.price i idx < (points.p idx).cost then
        { points.p idx with cost := points.price i idx, assign := i }
      else points.p idx := by
    intro idx inside
    unfold openCenter price
    simp only [inside, true_and]
    rw [dist_comm]
  have stays : ∀ facility ∈ opened, (points.openCenter i).p facility = points.p facility := by
    intro facility member
    have inside := formed.opened member
    have free : (points.p facility).cost = 0 := formed.free facility member
    rw [here facility (Finset.mem_range.mp inside), if_neg]
    rw [free, not_lt]
    exact laws.nonneg i (Finset.mem_range.mpr known) facility inside
  have own : (points.openCenter i).p i =
      { points.p i with cost := points.price i i, assign := i } := by
    rw [here i known, if_pos]
    rw [laws.self i (Finset.mem_range.mpr known)]
    exact pays
  refine ⟨⟨?_, ?_, ?_, ?_, ?_⟩, fun member => ?_⟩
  · intro facility member
    rcases Finset.mem_insert.mp member with rfl | old
    · exact Finset.mem_range.mpr known
    · exact formed.opened old
  · intro client member
    show ((points.openCenter i).p client).assign ∈ insert i opened
    rw [here client (Finset.mem_range.mp member)]
    split
    · exact Finset.mem_insert_self i opened
    · exact Finset.mem_insert_of_mem (formed.assign client member)
  · intro client member
    show ((points.openCenter i).p client).cost =
      points.price ((points.openCenter i).p client).assign client
    rw [here client (Finset.mem_range.mp member)]
    split
    · rfl
    · exact formed.cost client member
  · intro facility member
    show ((points.openCenter i).p facility).assign = facility
    rcases Finset.mem_insert.mp member with rfl | old
    · rw [own]
    · rw [stays facility old]
      exact formed.own facility old
  · intro facility member
    show ((points.openCenter i).p facility).cost = 0
    rcases Finset.mem_insert.mp member with rfl | old
    · rw [own]
      exact laws.self _ (Finset.mem_range.mpr known)
    · rw [stays facility old]
      exact formed.free facility old
  · exact absurd (formed.free i member) pays.ne'

/-- What `pspeedy` has found: a well formed plan with its number of centers. -/
structure Seeded (points : Points 𝕂) (kcenter : Nat) : Prop where
  /-- Some points are open centers. -/
  formed : ∃ opened, (points.plan opened).WellFormed points.price ∧ kcenter = opened.card

/-- A point at which `pspeedy` opens a center pays something. -/
theorem pays_of_opens {rand : Nat} {cost z : 𝕂} (nonneg : 0 ≤ z)
    (opens : (rand : 𝕂) / intMax < cost / z) : 0 < cost := by
  by_contra free
  have low : cost / z ≤ 0 := div_nonpos_of_nonpos_of_nonneg (not_lt.mp free) nonneg
  have high : (0 : 𝕂) ≤ (rand : 𝕂) / intMax := by positivity
  exact absurd (lt_of_le_of_lt high opens) (not_lt.mpr low)

/-- The body of the loop of `pspeedy` keeps a plan well formed. -/
theorem speedyStep_seeded (weighted : points.Weighted) (rand : Nat → Nat) {z : 𝕂} (nonneg : 0 ≤ z)
    {state : Points 𝕂 × Nat} (alike : Alike points state.1) (seeded : state.1.Seeded state.2)
    {i : Nat} (inside : i < points.num) :
    Alike points (speedyStep rand z state i).1 ∧
      (speedyStep rand z state i).1.Seeded (speedyStep rand z state i).2 := by
  obtain ⟨opened, formed, count⟩ := seeded.formed
  unfold speedyStep
  split
  · rename_i opens
    have known : i < state.1.num := alike.num ▸ inside
    have pays : 0 < (state.1.p i).cost := pays_of_opens nonneg opens
    obtain ⟨formed', fresh⟩ := formed_openCenter rfl formed (alike.weighted weighted) known pays
    refine ⟨alike.trans (alike_openCenter i), ⟨insert i opened, ?_, ?_⟩⟩
    · rw [(alike_openCenter i).price]
      exact formed'
    · rw [Finset.card_insert_of_notMem fresh, ← count]
  · exact ⟨alike, seeded⟩

/-- The loop of `pspeedy` keeps a plan well formed. -/
theorem speedy_seeded (some : 0 < points.num) (weighted : points.Weighted) (rand : Nat → Nat)
    {z : 𝕂} (nonneg : 0 ≤ z) :
    let opened := (List.range' 1 (points.num - 1)).foldl (speedyStep rand z)
      (points.sendToFirst, 1)
    Alike points opened.1 ∧ opened.1.Seeded opened.2 := by
  apply foldl_keeps fun state : Points 𝕂 × Nat => Alike points state.1 ∧ state.1.Seeded state.2
  · rintro state ⟨alike, seeded⟩ i member
    have bounds := List.mem_range'_1.mp member
    exact speedyStep_seeded weighted rand nonneg alike seeded (by omega)
  · refine ⟨alike_sendToFirst, ⟨{0}, ?_, rfl⟩⟩
    rw [alike_sendToFirst.price]
    exact formed_sendToFirst some

/-- `pspeedy` leaves a well formed plan and returns its cost. -/
theorem pspeedy_seeded (some : 0 < points.num) (weighted : points.Weighted) (rand : Nat → Nat)
    {z : 𝕂} (nonneg : 0 ≤ z) :
    Alike points (points.pspeedy rand z).1 ∧
    (points.pspeedy rand z).1.Seeded (points.pspeedy rand z).2.1 ∧
    (points.pspeedy rand z).2.2 = z * (points.pspeedy rand z).2.1 +
      ∑ i ∈ Finset.range points.num, ((points.pspeedy rand z).1.p i).cost := by
  obtain ⟨alike, seeded⟩ := speedy_seeded some weighted rand nonneg
  refine ⟨alike, seeded, ?_⟩
  exact foldl_add_range _ _ _

end Points

section Feasible

variable {points : Points 𝕂}

/-- The binary search stays within its bounds. -/
theorem Points.search_le (points : Points 𝕂) (w : 𝕂) (l r : Nat) : points.search w l r ≤ r := by
  fun_induction Points.search points w l r with
  | case1 l r more k left ih => omega
  | case2 l r more k right ih => exact ih
  | case3 l r done => exact le_rfl

/-- The points that may become centers are points. -/
theorem Points.selectfeasibleFast_lt (some : 0 < points.num) (conv : Conversion 𝕂)
    (rand : Nat → Nat) (many : 𝕂) :
    ∀ x ∈ points.selectfeasibleFast conv rand many, x < points.num := by
  intro x member
  unfold Points.selectfeasibleFast at member
  dsimp only at member
  generalize (if many < (points.num : 𝕂) then conv.toInt many else points.num) = numfeasible
    at member
  split at member
  · rename_i all
    rw [all] at member
    exact List.mem_range.mp member
  · obtain ⟨i, -, rfl⟩ := List.mem_map.mp member
    unfold Points.draw
    dsimp only
    split
    · exact some
    · have bound := points.search_le ((rand i : 𝕂) / intMax *
        points.accumweight (points.num - 1)) 0 (points.num - 1)
      omega

end Feasible

namespace Clustering

variable {st : Clustering 𝕂}

/-- The medians that the points are assigned to. -/
def medians (st : Clustering 𝕂) : Finset Nat :=
  (Finset.range st.points.num).image fun i => (st.points.p i).assign

omit [LinearOrder 𝕂] in
/-- The medians of a well formed plan are its open centers. -/
theorem medians_of_formed {opened : Finset Nat} {prices : Nat → Nat → 𝕂}
    (formed : (st.points.plan opened).WellFormed prices) : st.medians = opened := by
  ext median
  unfold medians
  rw [Finset.mem_image]
  constructor
  · rintro ⟨i, known, rfl⟩
    exact formed.assign i known
  · intro open_
    exact ⟨median, formed.opened open_, formed.own median open_⟩

omit [LinearOrder 𝕂] in
/-- The medians of a valid clustering are counted. -/
theorem Valid.medians (valid : st.Valid) : st.numcenters = st.medians.card := by
  have same : st.medians = st.plan.opened := medians_of_formed valid.formed
  rw [same]
  exact valid.count

end Clustering

namespace Kmedian

/-- The bounds of the price and the price are positive, or all points are at one place. -/
def Priced (hiz loz z : 𝕂) (points : Points 𝕂) : Prop :=
  (0 < hiz ∧ 0 ≤ loz ∧ 0 < z) ∨ (hiz = 0 ∧ loz = 0 ∧ z = 0 ∧ points.Flat)

/-- Before the centers are marked. -/
structure Seeding (s : State 𝕂) : Prop where
  /-- There are points. -/
  some : 0 < s.st.points.num
  /-- The points have weights. -/
  weighted : s.st.points.Weighted
  /-- The price is positive. -/
  priced : Priced s.hiz s.loz s.z s.st.points
  /-- No center is marked. -/
  unmarked : s.st.isCenter = fun _ => false
  /-- The points are assigned to centers. -/
  seeded : s.st.points.Seeded s.st.numcenters
  /-- The cost is the cost of the clustering. -/
  cost : s.cost = s.st.total s.z

/-- After the centers have been marked. -/
structure Running (s : State 𝕂) : Prop where
  /-- There are points. -/
  some : 0 < s.st.points.num
  /-- The points have weights. -/
  weighted : s.st.points.Weighted
  /-- The price is positive. -/
  priced : Priced s.hiz s.loz s.z s.st.points
  /-- The clustering is valid. -/
  valid : s.st.Valid
  /-- The points that may become centers are points. -/
  feasible : ∀ x ∈ s.feasible, x < s.st.points.num

variable {kmedian : Kmedian 𝕂} {s next : State 𝕂} [IsStrictOrderedRing 𝕂]

omit [IsStrictOrderedRing 𝕂] in
/-- The price is not negative. -/
theorem Priced.nonneg {hiz loz z : 𝕂} {points : Points 𝕂} (priced : Priced hiz loz z points) :
    0 ≤ z := by
  rcases priced with ⟨-, -, positive⟩ | ⟨-, -, zero, -⟩
  · exact positive.le
  · exact zero.ge

/-- `pspeedy` assigns the points to centers, and returns the cost. -/
theorem seeding_seed {points : Points 𝕂} (some : 0 < points.num) (weighted : points.Weighted)
    (priced : Priced s.hiz s.loz s.z points) (unmarked : s.st.isCenter = fun _ => false)
    (rand : Nat → Nat) : Seeding (seed rand points s) := by
  obtain ⟨alike, seeded, cost⟩ := points.pspeedy_seeded some weighted rand priced.nonneg
  refine ⟨?_, alike.weighted weighted, ?_, unmarked, seeded, ?_⟩
  · show 0 < (points.pspeedy rand s.z).1.num
    rw [alike.num]
    exact some
  · exact priced.imp_right fun flat => ⟨flat.1, flat.2.1, flat.2.2.1, alike.flat flat.2.2.2⟩
  · show (points.pspeedy rand s.z).2.2 = s.z * _ + ∑ i ∈ Finset.range
      (points.pspeedy rand s.z).1.num, _
    rw [alike.num]
    exact cost

omit [IsStrictOrderedRing 𝕂] in
/-- Where all points are at one place the clustering costs nothing but its centers. -/
theorem Running.cost_of_flat (running : Running s) (flat : s.st.points.Flat) :
    ∑ i ∈ Finset.range s.st.points.num, (s.st.points.p i).cost = 0 := by
  apply Finset.sum_eq_zero
  intro i member
  have formed := running.valid.formed
  have center := formed.opened (formed.assign i member)
  exact (formed.cost i member).trans
    (flat _ (Finset.mem_range.mp center) i (Finset.mem_range.mp member))

/-- The first step of a call that searches. -/
theorem seeding_begin (choice : kmedian.Choice) (weighted : s.st.points.Weighted)
    (unmarked : s.st.isCenter = fun _ => false) (many : kmedian.kmax < s.st.points.num) :
    Seeding (kmedian.stepBegin choice s) ∧ (kmedian.stepBegin choice s).phase = .retry := by
  have some : 0 < s.st.points.num := by omega
  have laws := Points.prices weighted
  have first : 0 ∈ Finset.range s.st.points.num := Finset.mem_range.mpr some
  have prices : ∀ idx ∈ Finset.range s.st.points.num, 0 ≤ s.st.points.price 0 idx :=
    fun idx member => laws.nonneg 0 first idx member
  unfold stepBegin
  dsimp only
  have sum : (List.range s.st.points.num).foldl (fun sum idx => sum +
      dist (s.st.points.p idx) (s.st.points.p 0) s.st.points.dim * (s.st.points.p idx).weight) 0 =
        ∑ idx ∈ Finset.range s.st.points.num, s.st.points.price 0 idx := by
    rw [foldl_add_range, zero_add]
    rfl
  rw [if_neg (Nat.not_le_of_lt many), sum]
  have priced : Priced (∑ idx ∈ Finset.range s.st.points.num, s.st.points.price 0 idx) 0
      ((∑ idx ∈ Finset.range s.st.points.num, s.st.points.price 0 idx + 0) / 2)
      (s.st.points.shuffle choice.shuffled) := by
    rcases (Finset.sum_nonneg prices).lt_or_eq with positive | zero
    · refine .inl ⟨positive, le_rfl, ?_⟩
      rw [add_zero]
      exact half_pos positive
    · -- all points are at the place of the first one
      refine .inr ⟨zero.symm, rfl, by rw [← zero]; simp, Points.flat_shuffle ?_ _⟩
      have free := (Finset.sum_eq_zero_iff_of_nonneg prices).mp zero.symm
      intro facility known client known'
      have here := Finset.mem_range.mpr known
      have there := Finset.mem_range.mpr known'
      rw [laws.together 0 first facility here (free facility here) client there]
      exact free client there
  have shuffled : 0 < (s.st.points.shuffle choice.shuffled).num := some
  have seeding : Seeding (seed choice.rand (s.st.points.shuffle choice.shuffled) { s with
      hiz := ∑ idx ∈ Finset.range s.st.points.num, s.st.points.price 0 idx
      loz := 0
      z := (∑ idx ∈ Finset.range s.st.points.num, s.st.points.price 0 idx + 0) / 2 }) := by
    apply seeding_seed shuffled (Points.weighted_shuffle weighted _)
    · exact priced
    · exact unmarked
  exact ⟨⟨seeding.some, seeding.weighted, seeding.priced, seeding.unmarked, seeding.seeded,
    seeding.cost⟩, rfl⟩

/-- More chances for `pspeedy`. -/
theorem seeding_retry (choice : kmedian.Choice) (seeding : Seeding s) :
    Seeding (kmedian.stepRetry choice s) := by
  unfold stepRetry
  split
  · have seeded := seeding_seed seeding.some seeding.weighted seeding.priced seeding.unmarked
      choice.rand
    exact ⟨seeded.some, seeded.weighted, seeded.priced, seeded.unmarked, seeded.seeded,
      seeded.cost⟩
  · exact ⟨seeding.some, seeding.weighted, seeding.priced, seeding.unmarked, seeding.seeded,
      seeding.cost⟩

/-- A lower price for `pspeedy`. -/
theorem seeding_lower (choice : kmedian.Choice) (seeding : Seeding s) :
    Seeding (kmedian.stepLower choice s) := by
  have shuffled : 0 < (s.st.points.shuffle choice.shuffled).num := seeding.some
  have priced : Priced s.hiz s.loz s.z (s.st.points.shuffle choice.shuffled) :=
    seeding.priced.imp_right fun flat =>
      ⟨flat.1, flat.2.1, flat.2.2.1, Points.flat_shuffle flat.2.2.2 _⟩
  unfold stepLower
  split
  · dsimp only
    split
    · have lower : Priced s.z s.loz ((s.z + s.loz) / 2)
          (s.st.points.shuffle choice.shuffled) := by
        rcases priced with ⟨-, nonneg, positive⟩ | ⟨-, low, zero, flat⟩
        · exact .inl ⟨positive, nonneg, half_pos (add_pos_of_pos_of_nonneg positive nonneg)⟩
        · exact .inr ⟨zero, low, by rw [zero, low]; simp, flat⟩
      have seeded : Seeding (seed choice.rand (s.st.points.shuffle choice.shuffled)
          { s with hiz := s.z, z := (s.z + s.loz) / 2, i := 0 }) := by
        apply seeding_seed shuffled (Points.weighted_shuffle seeding.weighted _)
        · exact lower
        · exact seeding.unmarked
      exact ⟨seeded.some, seeded.weighted, seeded.priced, seeded.unmarked, seeded.seeded,
        seeded.cost⟩
    · have seeded := seeding_seed shuffled (Points.weighted_shuffle seeding.weighted _) priced
        seeding.unmarked choice.rand
      exact ⟨seeded.some, seeded.weighted, seeded.priced, seeded.unmarked, seeded.seeded,
        seeded.cost⟩
  · exact ⟨seeding.some, seeding.weighted, seeding.priced, seeding.unmarked, seeding.seeded,
      seeding.cost⟩

omit [IsStrictOrderedRing 𝕂] in
/-- The centers are marked. -/
theorem running_select (choice : kmedian.Choice) (seeding : Seeding s) :
    Running (kmedian.stepSelect choice s) ∧
      (kmedian.stepSelect choice s).cost =
        (kmedian.stepSelect choice s).st.total (kmedian.stepSelect choice s).z := by
  obtain ⟨opened, formed, count⟩ := seeding.seeded.formed
  refine ⟨⟨seeding.some, seeding.weighted, seeding.priced, ?_,
    Points.selectfeasibleFast_lt seeding.some _ _ _⟩, seeding.cost⟩
  have opens : (kmedian.stepSelect choice s).st.plan = s.st.points.plan opened := by
    have same : (kmedian.stepSelect choice s).st.plan.opened = opened := by
      ext c
      rw [Clustering.mem_opened]
      show c < s.st.points.num ∧ (List.range s.st.points.num).foldl (fun isCenter i =>
        Function.update isCenter (s.st.points.p i).assign true) s.st.isCenter c = true ↔ _
      -- the marks are those of the open centers
      rw [seeding.unmarked, foldl_mark]
      constructor
      · rintro ⟨-, i, below, rfl⟩
        exact formed.assign i (Finset.mem_range.mpr below)
      · intro member
        have known := formed.opened member
        exact ⟨Finset.mem_range.mp known, c, Finset.mem_range.mp known, formed.own c member⟩
    rw [← same]
    rfl
  constructor
  · rw [opens]
    exact formed
  · rw [opens]
    exact count

/-- The random order of the points that may become centers. -/
theorem feasible_shuffled {feasible : List Nat} {n : Nat} (bound : ∀ x ∈ feasible, x < n)
    (rand : Nat → Nat) : ∀ x ∈ (List.range feasible.length).map
      (shuffle rand feasible.length fun i => feasible.getD i 0), x < n := by
  intro x member
  obtain ⟨i, inside, rfl⟩ := List.mem_map.mp member
  obtain ⟨σ, within, same⟩ := shuffle_eq rand feasible.length fun i => feasible.getD i 0
  rw [same]
  have below := within i (List.mem_range.mp inside)
  dsimp only
  rw [List.getD_eq_getElem _ _ below]
  exact bound _ (List.getElem_mem below)

/-- The loop of `pFL` is entered only when a median has a price. -/
theorem Running.positive (running : Running s) (cost : s.cost = s.st.total s.z)
    {accurate : Bool} (enters : 1 * threshold accurate < s.change / s.cost) : 0 < s.z := by
  rcases running.priced with ⟨-, -, positive⟩ | ⟨-, -, zero, flat⟩
  · exact positive
  · have free : s.cost = 0 := by
      rw [cost, Clustering.total, running.cost_of_flat flat, zero, zero_mul, add_zero]
    have above : (0 : 𝕂) < threshold accurate := by
      unfold threshold
      split
      · positivity
      · positivity
    rw [free, div_zero, one_mul] at enters
    exact absurd enters above.not_gt

omit [IsStrictOrderedRing 𝕂] in
/-- The local move changes assignments and costs only. -/
theorem alike_move (st : Clustering 𝕂) (z : 𝕂) (x : Nat) :
    Points.Alike st.points (st.move z x).points := by
  refine ⟨rfl, rfl, fun i => ?_, fun i => ?_⟩
  · unfold Clustering.move
    dsimp only
    split <;> rfl
  · unfold Clustering.move
    dsimp only
    split <;> rfl

/-- What a call of `pgain` leaves: the move when that is worth it, or the clustering as it was. -/
def Chosen (st : Clustering 𝕂) (z : 𝕂) (x : Nat) (st' : Clustering 𝕂) : Prop :=
  ((st.move z x).total z - st.total z < 0 ∧ st' = st.move z x) ∨
    ¬(st.move z x).total z - st.total z < 0 ∧ st' = st

omit [IsStrictOrderedRing 𝕂] in
/-- A call of `pgain` changes assignments and costs only. -/
theorem Chosen.alike {st st' : Clustering 𝕂} {z : 𝕂} {x : Nat} (chosen : Chosen st z x st') :
    Points.Alike st.points st'.points := by
  rcases chosen with ⟨-, rfl⟩ | ⟨-, rfl⟩
  · exact alike_move st z x
  · exact Points.Alike.refl _

/-- An iteration of `pFL`, or the end of the loop. -/
theorem stepGain_cases {choice : kmedian.Choice} {accurate : Bool} (running : Running s)
    (positive : 0 < s.z) (moves : kmedian.stepGain choice accurate s = some next) :
    (∃ x st, s.feasible[s.iteration % s.feasible.length]? = some x ∧ x < s.st.points.num ∧
      Chosen s.st s.z x st ∧ st.Valid ∧ next = { s with
        st := st
        change := s.change + (s.st.total s.z - st.total s.z)
        iteration := s.iteration + 1 }) ∨
    (kmedian.conv.toInt (kmedian.iterLog kmedian.kmax) ≤ s.iteration ∧
      next = { s with phase := .test accurate, cost := s.cost - s.change }) := by
  unfold stepGain at moves
  split at moves
  · obtain ⟨x, found, moves⟩ := Option.bind_eq_some_iff.mp moves
    obtain rfl := Option.some.inj moves
    have known : x < s.st.points.num := running.feasible x (List.mem_of_getElem? found)
    let call : Call 𝕂 := ⟨x, s.z, s.st, kmedian.nproc, kmedian.conv⟩
    have same := @Call.pgain_eq 𝕂 _ call _ running.valid kmedian.nproc_pos .ff choice.sched
      choice.mem
    have change : (s.st.move s.z x).total s.z - s.st.total s.z = _ :=
      running.valid.total_move running.weighted positive known
    dsimp only at same
    rw [same, ← change]
    by_cases worth : (s.st.move s.z x).total s.z - s.st.total s.z < 0
    · refine .inl ⟨x, s.st.move s.z x, found, known, .inl ⟨worth, rfl⟩,
        running.valid.move running.weighted positive known, ?_⟩
      rw [if_pos worth, if_pos worth, neg_sub]
      rfl
    · refine .inl ⟨x, s.st, found, known, .inr ⟨worth, rfl⟩, running.valid, ?_⟩
      rw [if_neg worth, if_neg worth, sub_self]
  · rename_i ends
    exact .inr ⟨Nat.le_of_not_lt ends, (Option.some.inj moves).symm⟩

/-- A call of `pgain` saves what it returns. -/
theorem running_gain {choice : kmedian.Choice} {accurate : Bool} (running : Running s)
    (positive : 0 < s.z) (cost : s.cost - s.change = s.st.total s.z)
    (phase : s.phase = .gain accurate) (moves : kmedian.stepGain choice accurate s = some next) :
    Running next ∧ next.st.points.num = s.st.points.num ∧
      (next.phase = .gain accurate ∧ 0 < next.z ∧
          next.cost - next.change = next.st.total next.z ∨
        next.phase = .test accurate ∧ next.cost = next.st.total next.z) := by
  obtain ⟨x, st, found, known, chosen, valid, rfl⟩ | ⟨-, rfl⟩ :=
    stepGain_cases running positive moves
  · have alike := chosen.alike
    refine ⟨⟨?_, alike.weighted running.weighted, ?_, valid, ?_⟩, alike.num, .inl ⟨phase, positive,
      ?_⟩⟩
    · show 0 < st.points.num
      rw [alike.num]
      exact running.some
    · exact running.priced.imp_right fun flat =>
        ⟨flat.1, flat.2.1, flat.2.2.1, alike.flat flat.2.2.2⟩
    · intro x member
      show x < st.points.num
      rw [alike.num]
      exact running.feasible x member
    · show s.cost - (s.change + (s.st.total s.z - st.total s.z)) = st.total s.z
      rw [← cost]
      ring
  · exact ⟨⟨running.some, running.weighted, running.priced, running.valid, running.feasible⟩, rfl,
      .inr ⟨rfl, cost⟩⟩

omit [LinearOrder 𝕂] [IsStrictOrderedRing 𝕂] in
/-- A change of the price changes the cost by the number of medians. -/
theorem total_price (st : Clustering 𝕂) (z z' : 𝕂) :
    st.total z' = st.total z + (z' - z) * st.numcenters := by
  unfold Clustering.total
  ring

/-- The search for the price keeps the cost. -/
theorem running_adjust (running : Running s) (cost : s.cost = s.st.total s.z) :
    Running (kmedian.stepAdjust s) ∧
      (kmedian.stepAdjust s).cost = (kmedian.stepAdjust s).st.total (kmedian.stepAdjust s).z ∧
      (kmedian.stepAdjust s).st = s.st ∧
      ((kmedian.stepAdjust s).phase = .done ∧ (kmedian.stepAdjust s).kfinal = s.st.numcenters ∨
        (kmedian.stepAdjust s).phase = .test false) := by
  have raised : Priced s.hiz s.z ((s.hiz + s.z) / 2) s.st.points := by
    rcases running.priced with ⟨high, -, positive⟩ | ⟨high, -, zero, flat⟩
    · exact .inl ⟨high, positive.le, half_pos (add_pos high positive)⟩
    · exact .inr ⟨high, zero, by rw [high, zero]; simp, flat⟩
  have lowered : Priced s.z s.loz ((s.z + s.loz) / 2) s.st.points := by
    rcases running.priced with ⟨-, nonneg, positive⟩ | ⟨-, low, zero, flat⟩
    · exact .inl ⟨positive, nonneg, half_pos (add_pos_of_pos_of_nonneg positive nonneg)⟩
    · exact .inr ⟨zero, low, by rw [zero, low]; simp, flat⟩
  unfold stepAdjust
  dsimp only
  by_cases above : kmedian.kmax < s.st.numcenters
  · have enough : ¬s.st.numcenters < kmedian.kmin := by
      have order := kmedian.kmin_le
      omega
    rw [if_pos above, if_neg enough]
    dsimp only
    have moved : s.cost + ((s.hiz + s.z) / 2 - s.z) * (s.st.numcenters : 𝕂) =
        s.st.total ((s.hiz + s.z) / 2) := by
      rw [cost]
      exact (total_price _ _ _).symm
    split
    · exact ⟨⟨running.some, running.weighted, raised, running.valid, running.feasible⟩, moved, rfl,
        .inl ⟨rfl, rfl⟩⟩
    · exact ⟨⟨running.some, running.weighted, raised, running.valid, running.feasible⟩, moved, rfl,
        .inr rfl⟩
  · rw [if_neg above]
    by_cases below : s.st.numcenters < kmedian.kmin
    · rw [if_pos below]
      dsimp only
      have moved : s.cost + ((s.z + s.loz) / 2 - s.z) * (s.st.numcenters : 𝕂) =
          s.st.total ((s.z + s.loz) / 2) := by
        rw [cost]
        exact (total_price _ _ _).symm
      split
      · exact ⟨⟨running.some, running.weighted, lowered, running.valid, running.feasible⟩, moved,
          rfl, .inl ⟨rfl, rfl⟩⟩
      · exact ⟨⟨running.some, running.weighted, lowered, running.valid, running.feasible⟩, moved,
          rfl, .inr rfl⟩
    · rw [if_neg below]
      split
      · exact ⟨⟨running.some, running.weighted, running.priced, running.valid, running.feasible⟩,
          cost, rfl, .inl ⟨rfl, rfl⟩⟩
      · exact ⟨⟨running.some, running.weighted, running.priced, running.valid, running.feasible⟩,
          cost, rfl, .inr rfl⟩

/-- The invariant of `pkmedian`. -/
inductive Inv (kmedian : Kmedian 𝕂) (points : Points 𝕂) (k : Nat) : State 𝕂 → Prop where
  /-- At the begin. -/
  | begin : Inv kmedian points k (start points k)
  /-- All points are medians. -/
  | few {s : State 𝕂} (phase : s.phase = .few) (bound : points.num ≤ kmedian.kmax)
      (num : s.st.points.num = points.num) (kfinal : s.kfinal = k)
      (own : ∀ i < points.num, (s.st.points.p i).assign = i) : Inv kmedian points k s
  /-- Before the centers are marked. -/
  | seeding {s : State 𝕂} (phase : s.phase = .retry ∨ s.phase = .lower ∨ s.phase = .select)
      (many : kmedian.kmax < points.num) (num : s.st.points.num = points.num)
      (seeding : Seeding s) : Inv kmedian points k s
  /-- Between the calls of `pgain`. -/
  | running {s : State 𝕂}
      (phase : (∃ accurate, s.phase = .test accurate) ∨ s.phase = .adjust ∨
        s.phase = .done ∧ s.kfinal = s.st.numcenters)
      (many : kmedian.kmax < points.num) (num : s.st.points.num = points.num)
      (running : Running s) (cost : s.cost = s.st.total s.z) : Inv kmedian points k s
  /-- In the loop that calls `pgain`. -/
  | gaining {s : State 𝕂} {accurate : Bool} (phase : s.phase = .gain accurate)
      (many : kmedian.kmax < points.num) (num : s.st.points.num = points.num)
      (running : Running s) (positive : 0 < s.z) (cost : s.cost - s.change = s.st.total s.z) :
      Inv kmedian points k s

omit [IsStrictOrderedRing 𝕂] in
/-- `pspeedy` does not change the number of points. -/
theorem num_pspeedy (points : Points 𝕂) (rand : Nat → Nat) (z : 𝕂) :
    (points.pspeedy rand z).1.num = points.num := by
  apply foldl_keeps fun state : Points 𝕂 × Nat => state.1.num = points.num
  · intro state num i _
    unfold Points.speedyStep
    split
    · exact num
    · exact num
  · rfl

variable {points : Points 𝕂} {k : Nat}

/-! ### What the invariant says of each phase -/

omit [IsStrictOrderedRing 𝕂] in
/-- The state in the loop of `pFL`. -/
theorem Inv.gaining_of (inv : Inv kmedian points k s) {accurate : Bool}
    (phase : s.phase = .gain accurate) :
    Running s ∧ 0 < s.z ∧ s.cost - s.change = s.st.total s.z := by
  cases inv with
  | begin => exact nomatch phase
  | few other => exact nomatch other.symm.trans phase
  | seeding other =>
    rcases other with other | other | other <;> exact nomatch other.symm.trans phase
  | running other =>
    rcases other with ⟨_, other⟩ | other | ⟨other, -⟩ <;> exact nomatch other.symm.trans phase
  | gaining _ _ _ running positive cost => exact ⟨running, positive, cost⟩

/-- Every step keeps the invariant. -/
theorem Inv.step (weighted : points.Weighted) (inv : Inv kmedian points k s)
    {choice : kmedian.Choice} (moves : kmedian.step choice s = some next) :
    Inv kmedian points k next := by
  unfold Kmedian.step at moves
  cases inv with
  | begin =>
    cases moves
    by_cases bound : points.num ≤ kmedian.kmax
    · have small : (start points k).st.points.num ≤ kmedian.kmax := bound
      refine .few ?_ bound ?_ ?_ ?_
      · unfold stepBegin
        dsimp only
        rw [if_pos small]
      · unfold stepBegin
        dsimp only
        rw [if_pos small]
        rfl
      · unfold stepBegin
        dsimp only
        rw [if_pos small]
        rfl
      · intro i known
        unfold stepBegin
        dsimp only
        rw [if_pos small]
        dsimp only
        rw [if_pos (show i < (start points k).st.points.num from known)]
    · have many : kmedian.kmax < (start points k).st.points.num := Nat.lt_of_not_le bound
      obtain ⟨seeding, phase⟩ := seeding_begin (s := start points k) choice weighted rfl many
      refine .seeding (.inl phase) many ?_ seeding
      unfold stepBegin
      dsimp only
      rw [if_neg (Nat.not_le_of_lt many)]
      exact num_pspeedy _ _ _
  | few phase => rw [phase] at moves; cases moves
  | seeding phase many num seeding =>
    rcases phase with phase | phase | phase
    · rw [phase] at moves
      cases moves
      refine .seeding ?_ many ?_ (seeding_retry choice seeding)
      · unfold stepRetry
        split
        · exact .inl phase
        · exact .inr (.inl rfl)
      · unfold stepRetry
        split
        · exact (num_pspeedy _ _ _).trans num
        · exact num
    · rw [phase] at moves
      cases moves
      refine .seeding ?_ many ?_ (seeding_lower choice seeding)
      · unfold stepLower
        dsimp only
        split
        · split
          · exact .inr (.inl phase)
          · exact .inr (.inl phase)
        · exact .inr (.inr rfl)
      · unfold stepLower
        dsimp only
        split
        · split
          · exact (num_pspeedy _ _ _).trans num
          · exact (num_pspeedy _ _ _).trans num
        · exact num
    · rw [phase] at moves
      cases moves
      obtain ⟨running, cost⟩ := running_select choice seeding
      exact .running (.inl ⟨false, rfl⟩) many num running cost
  | running phase many num running cost =>
    rcases phase with ⟨accurate, phase⟩ | phase | ⟨phase, -⟩
    · rw [phase] at moves
      cases moves
      unfold stepTest
      split
      · rename_i enters
        refine .gaining rfl many num ⟨running.some, running.weighted, running.priced,
          running.valid, feasible_shuffled running.feasible _⟩ (running.positive cost enters) ?_
        rw [sub_zero]
        exact cost
      split
      · exact .running (.inl ⟨true, rfl⟩) many num ⟨running.some, running.weighted,
          running.priced, running.valid, running.feasible⟩ cost
      · exact .running (.inr (.inl rfl)) many num ⟨running.some, running.weighted,
          running.priced, running.valid, running.feasible⟩ cost
    · rw [phase] at moves
      cases moves
      obtain ⟨running', cost', same, phase⟩ : Running (kmedian.stepAdjust s) ∧ _ :=
        running_adjust running cost
      refine .running ?_ many ?_ running' cost'
      · rcases phase with ⟨done, kfinal⟩ | test
        · refine .inr (.inr ⟨done, ?_⟩)
          rw [kfinal, same]
        · exact .inl ⟨false, test⟩
      · rw [same]
        exact num
    · rw [phase] at moves
      cases moves
  | gaining phase many num running positive cost =>
    rw [phase] at moves
    obtain ⟨running, same, ⟨phase, positive, cost⟩ | ⟨phase, cost⟩⟩ :=
      running_gain running positive cost phase moves
    · exact .gaining phase many (same.trans num) running positive cost
    · exact .running (.inl ⟨_, phase⟩) many (same.trans num) running cost

/-- The invariant holds in every state of a call. -/
theorem Reached.inv (weighted : points.Weighted) (reached : Reached kmedian points k s) :
    Inv kmedian points k s := by
  induction reached with
  | start begins =>
    rw [begins]
    exact .begin
  | step _ moves ih =>
    obtain ⟨choice, moves⟩ := moves
    exact ih.step weighted moves

/-- What the variables of `pkmedian` and `pFL` say that the clustering costs: in the loop of `pFL`
the change is still to be subtracted. -/
def State.runningCost (s : State 𝕂) : 𝕂 :=
  match s.phase with
  | .gain _ => s.cost - s.change
  | _ => s.cost

/-- In a call of `pkmedian` on points with weights the cost is the price of the open centers and the
costs of the points, from the first call of `pspeedy` on, for all numbers that `lrand48` gives; and
the open centers are counted. -/
theorem cost_balanced (weighted : points.Weighted) (reached : Reached kmedian points k s)
    (seeded : s.phase ≠ .begin) (search : s.phase ≠ .few) :
    s.runningCost = s.z * s.st.numcenters +
      ∑ i ∈ Finset.range s.st.points.num, (s.st.points.p i).cost ∧
    s.st.numcenters = s.st.medians.card := by
  cases reached.inv weighted with
  | begin => exact absurd rfl seeded
  | few phase => exact absurd phase search
  | seeding phase many num seeding =>
    obtain ⟨opened, formed, count⟩ := seeding.seeded.formed
    refine ⟨?_, by rw [count, Clustering.medians_of_formed formed]⟩
    unfold State.runningCost
    rcases phase with phase | phase | phase
    · rw [phase]
      exact seeding.cost
    · rw [phase]
      exact seeding.cost
    · rw [phase]
      exact seeding.cost
  | running phase many num running cost =>
    refine ⟨?_, running.valid.medians⟩
    unfold State.runningCost
    rcases phase with ⟨accurate, phase⟩ | phase | ⟨phase, -⟩
    · rw [phase]
      exact cost
    · rw [phase]
      exact cost
    · rw [phase]
      exact cost
  | gaining phase many num running positive cost =>
    refine ⟨?_, running.valid.medians⟩
    unfold State.runningCost
    rw [phase]
    exact cost

section Sample

/-- One median, with one thread. -/
def sampleKmedian : Kmedian ℚ :=
  ⟨1, 1, le_rfl, 1, Nat.one_pos, floorConversion, fun _ => 1⟩

/-- Points at 0, 3 and 4 on a line. -/
def samplePoints : Points ℚ :=
  ⟨3, 1, fun i =>
    match i with
    | 0 => ⟨1, fun _ => 0, 0, 0⟩
    | 1 => ⟨1, fun _ => 3, 0, 0⟩
    | _ => ⟨1, fun _ => 4, 0, 0⟩⟩

/-- All random numbers are 0. -/
def sampleChoice : sampleKmedian.Choice :=
  ⟨fun _ => 0, fun _ => 0, ⟨fun _ => [0], fun _ => by decide⟩,
    ⟨id, fun _ => true, fun _ => 7, fun _ => 5, id⟩⟩

/-- The state after some steps. -/
def sampleSteps (steps : Nat) : Option (State ℚ) :=
  (List.replicate steps sampleChoice).foldlM (fun s choice => sampleKmedian.step choice s)
    (start samplePoints 0)

/-- The steps lead to a state of the call. -/
theorem sampleSteps_reached {steps : Nat} {s : State ℚ} (run : sampleSteps steps = some s) :
    Reached sampleKmedian samplePoints 0 s :=
  Reachable.actions (fun choice _ _ moves => ⟨choice, moves⟩) (.start rfl) run

/-- The eighteenth state of the sample is in the loop of `pFL`, behind a change of the price. -/
theorem sampleSteps_eighteen :
    (sampleSteps 18).map (fun s => (s.phase, s.change, s.z)) =
      some (.gain false, 11 / 4, 75 / 4) := by
  decide +kernel

/-- Of three centers one is closed at the first price. The price is raised, and another one is
closed. -/
theorem cost_balanced_sample : ∃ s ∈ sampleSteps 18, s.change = 11 / 4 ∧ s.z = 75 / 4 ∧
    s.runningCost = s.z * s.st.numcenters +
      ∑ i ∈ Finset.range s.st.points.num, (s.st.points.p i).cost ∧
    s.st.numcenters = s.st.medians.card := by
  obtain ⟨s, run, same⟩ := Option.map_eq_some_iff.mp sampleSteps_eighteen
  obtain ⟨phase, values⟩ := Prod.mk.inj same
  obtain ⟨change, price⟩ := Prod.mk.inj values
  have weighted : samplePoints.Weighted := by
    unfold Points.Weighted
    decide +kernel
  exact ⟨s, run, change, price, cost_balanced weighted (sampleSteps_reached run)
    (by rw [phase]; simp) (by rw [phase]; simp)⟩

end Sample

end Kmedian

end P3arsec.Streamcluster
