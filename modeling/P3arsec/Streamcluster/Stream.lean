import P3arsec.Streamcluster.KmedianCost

/-!
# The centers of the stream

`streamCluster` clusters the stream chunk by chunk and keeps the medians of each chunk in arrays of
`centersize` entries. It stops before a chunk whose `kfinal` medians would not fit. The static
variable `k` of `pkmedian` lives on from one chunk to the next: after the search it counts the
medians, but the early return hands out what an earlier chunk has left in it.
-/

namespace P3arsec.Streamcluster

open P3arsec.Lib

variable {𝕂 : Type} [Field 𝕂] [LinearOrder 𝕂]

namespace Points

variable (points : Points 𝕂)

/-- The body of the loop of `contcenters`: the median of a point moves towards it. -/
def contcenter (points : Points 𝕂) (i : Nat) : Points 𝕂 :=
  let median := (points.p i).assign
  if median ≠ i then
    let weight := (points.p median).weight + (points.p i).weight
    let relweight := (points.p i).weight / weight
    { points with
      p := Function.update points.p median
        { points.p median with
          coord := fun ii =>
            if ii < points.dim then
              (points.p median).coord ii * (1 - relweight) + (points.p i).coord ii * relweight
            else (points.p median).coord ii
          weight := weight } }
  else points

/-- `contcenters`. -/
def contcenters : Points 𝕂 := (List.range points.num).foldl contcenter points

/-- `is_a_median`. -/
def isAMedian : Nat → Bool :=
  (List.range points.num).foldl (fun marks i => Function.update marks (points.p i).assign true)
    fun _ => false

end Points

/-- `centers` and `centerIDs`. -/
structure Centers (𝕂 : Type) where
  /-- The number of centers. -/
  num : Nat
  /-- The coordinates. -/
  coord : Nat → Nat → 𝕂
  /-- The weights. -/
  weight : Nat → 𝕂
  /-- `centerIDs`. -/
  centerIDs : Nat → Nat

/-- The body of the second loop of `copycenters`. There is no result where it writes past the
entries. -/
def copycenter (centersize : Nat) (points : Points 𝕂) (offset : Nat) (centers : Centers 𝕂)
    (i : Nat) : Option (Centers 𝕂) :=
  if points.isAMedian i then
    if centers.num < centersize then
      some
        { num := centers.num + 1
          coord := Function.update centers.coord centers.num (points.p i).coord
          weight := Function.update centers.weight centers.num (points.p i).weight
          centerIDs := Function.update centers.centerIDs centers.num (i + offset) }
    else none
  else some centers

/-- `copycenters`. -/
def copycenters (centersize : Nat) (points : Points 𝕂) (centers : Centers 𝕂) (offset : Nat) :
    Option (Centers 𝕂) :=
  (List.range points.num).foldlM (copycenter centersize points offset) centers

/-- `streamCluster` after some chunks. -/
inductive Stream (𝕂 : Type) where
  /-- The next chunk is read. -/
  | running (k : Nat) (centers : Centers 𝕂) (idOffset : Nat)
  /-- Stopped, as there is no more space for centers. -/
  | stopped
  /-- Written past the entries of the arrays. -/
  | past

/-- A chunk, after `pkmedian` has returned. -/
def readChunk (centersize : Nat) (s : Kmedian.State 𝕂) (centers : Centers 𝕂) (idOffset : Nat) :
    Stream 𝕂 :=
  let points := s.st.points.contcenters
  if centersize < s.kfinal + centers.num then .stopped
  else
    match copycenters centersize points centers idOffset with
    | some centers => .running s.st.numcenters centers (idOffset + points.num)
    | none => .past

namespace Kmedian

/-- `pkmedian` has returned. -/
def Returns (kmedian : Kmedian 𝕂) (points : Points 𝕂) (k : Nat) (s : State 𝕂) : Prop :=
  Reached kmedian points k s ∧ (s.phase = .few ∨ s.phase = .done)

/-- The call searches for medians, or the variable `k` has the number of the points by chance. -/
def Counted (kmedian : Kmedian 𝕂) (points : Points 𝕂) (k : Nat) : Prop :=
  kmedian.kmax < points.num ∨ k = points.num

/-- The states of `streamCluster` when each call of `pkmedian` meets a condition. The points of a
chunk have the weight one. -/
inductive Chunks (kmedian : Kmedian 𝕂) (chunksize centersize : Nat)
    (condition : Points 𝕂 → Nat → Prop) : Stream 𝕂 → Prop where
  /-- No center has been found, and `k` is zero. -/
  | start (centers : Centers 𝕂) (none : centers.num = 0) :
      Chunks kmedian chunksize centersize condition (.running 0 centers 0)
  /-- One more chunk. -/
  | chunk {k idOffset : Nat} {centers : Centers 𝕂} {points : Points 𝕂} {s : State 𝕂}
      (before : Chunks kmedian chunksize centersize condition (.running k centers idOffset))
      (size : points.num ≤ chunksize) (weights : ∀ i, (points.p i).weight = 1)
      (returns : kmedian.Returns points k s) (meets : condition points k) :
      Chunks kmedian chunksize centersize condition (readChunk centersize s centers idOffset)

end Kmedian

section Medians

variable {points : Points 𝕂}

omit [LinearOrder 𝕂] in
/-- The assignment stays as it is. -/
theorem contcenters_assign (points : Points 𝕂) :
    points.contcenters.num = points.num ∧
      ∀ i, (points.contcenters.p i).assign = (points.p i).assign := by
  unfold Points.contcenters
  apply foldl_keeps fun moved : Points 𝕂 =>
    moved.num = points.num ∧ ∀ i, (moved.p i).assign = (points.p i).assign
  · rintro moved ⟨num, assign⟩ i _
    unfold Points.contcenter
    dsimp only
    split
    · refine ⟨num, fun other => ?_⟩
      dsimp only
      rw [Function.update_apply]
      split
      · rename_i here
        rw [here]
        exact assign _
      · exact assign other
    · exact ⟨num, assign⟩
  · exact ⟨rfl, fun _ => rfl⟩

omit [Field 𝕂] [LinearOrder 𝕂] in
/-- The test finds the points to which others are assigned. -/
theorem isAMedian_iff (i : Nat) :
    points.isAMedian i = true ↔ ∃ j < points.num, (points.p j).assign = i :=
  foldl_mark (fun j => (points.p j).assign) points.num i

omit [LinearOrder 𝕂] in
/-- The medians of a clustering are the marked points. -/
theorem card_medians {st : Clustering 𝕂} (inside : ∀ m ∈ st.medians, m < st.points.num) :
    ((List.range st.points.num).filter st.points.contcenters.isAMedian).length =
      st.medians.card := by
  obtain ⟨num, assign⟩ := contcenters_assign st.points
  have same : ((List.range st.points.num).filter st.points.contcenters.isAMedian).toFinset =
      st.medians := by
    ext m
    rw [List.mem_toFinset, List.mem_filter, List.mem_range, isAMedian_iff, num]
    simp only [assign]
    unfold Clustering.medians
    rw [Finset.mem_image]
    constructor
    · rintro ⟨-, j, known, here⟩
      exact ⟨j, Finset.mem_range.mpr known, here⟩
    · rintro ⟨j, known, here⟩
      refine ⟨?_, j, Finset.mem_range.mp known, here⟩
      rw [← here]
      exact inside _ (Finset.mem_image_of_mem _ known)
  rw [← same, List.toFinset_card_of_nodup (List.nodup_range.filter _)]

omit [Field 𝕂] [LinearOrder 𝕂] in
/-- Medians that fit are copied. -/
theorem copycenters_some {centersize : Nat} (offset : Nat) (centers : Centers 𝕂)
    (fits : ((List.range points.num).filter points.isAMedian).length + centers.num ≤ centersize) :
    ∃ copied, copycenters centersize points centers offset = some copied := by
  have loop : ∀ (list : List Nat) (centers : Centers 𝕂),
      (list.filter points.isAMedian).length + centers.num ≤ centersize →
      ∃ copied, list.foldlM (copycenter centersize points offset) centers = some copied := by
    intro list
    induction list with
    | nil => exact fun centers _ => ⟨centers, rfl⟩
    | cons i list ih =>
      intro centers fits
      rw [List.foldlM_cons]
      unfold copycenter
      by_cases median : points.isAMedian i
      · rw [List.filter_cons_of_pos median, List.length_cons] at fits
        rw [if_pos median, if_pos (by omega)]
        exact ih _ (by dsimp only; omega)
      · rw [List.filter_cons_of_neg median] at fits
        rw [if_neg median]
        exact ih centers fits
  exact loop _ centers fits

end Medians

namespace Kmedian

variable {kmedian : Kmedian 𝕂} {points : Points 𝕂} {k : Nat} {s : State 𝕂}
  [IsStrictOrderedRing 𝕂]

/-- The result of a call: all points are medians and `kfinal` is the old value of `k`, or `kfinal`
has counted the medians. -/
theorem Returns.cases (weighted : points.Weighted) (returns : kmedian.Returns points k s) :
    s.st.points.num = points.num ∧ (∀ m ∈ s.st.medians, m < s.st.points.num) ∧
      (points.num ≤ kmedian.kmax ∧ s.kfinal = k ∧ s.st.medians.card = points.num ∨
        kmedian.kmax < points.num ∧ s.kfinal = s.st.medians.card) := by
  obtain ⟨reached, phase⟩ := returns
  cases reached.inv weighted with
  | begin => rcases phase with phase | phase <;> cases phase
  | few _ bound num kfinal own =>
    have all : s.st.medians = Finset.range points.num := by
      unfold Clustering.medians
      rw [num]
      refine (Finset.image_congr fun i member => ?_).trans Finset.image_id
      exact own i (Finset.mem_range.mp (Finset.mem_coe.mp member))
    refine ⟨num, ?_, .inl ⟨bound, kfinal, by rw [all, Finset.card_range]⟩⟩
    rw [all, num]
    exact fun m member => Finset.mem_range.mp member
  | seeding other =>
    rcases phase with phase | phase <;> simp [phase] at other
  | running other many num running cost =>
    have counted : s.kfinal = s.st.numcenters := by
      rcases phase with phase | phase
      · simp [phase] at other
      · simpa [phase] using other
    refine ⟨num, ?_, .inr ⟨many, counted.trans running.valid.medians⟩⟩
    intro m member
    have opened : s.st.medians = s.st.plan.opened :=
      Clustering.medians_of_formed running.valid.formed
    exact Finset.mem_range.mp (running.valid.formed.opened (opened ▸ member))
  | gaining other =>
    rcases phase with phase | phase <;> simp [phase] at other

/-- A call hands out the number of the medians exactly when it has searched for them or `k` had it
before. In a stream whose calls do, nothing is written past the entries for the centers. -/
theorem kfinal_counts (kmedian : Kmedian 𝕂) :
    (∀ points k s, points.Weighted → kmedian.Returns points k s →
        (s.kfinal = s.st.medians.card ↔ kmedian.Counted points k)) ∧
      ∀ chunksize centersize stream,
        kmedian.Chunks chunksize centersize kmedian.Counted stream → stream ≠ .past := by
  have counts : ∀ points k s, points.Weighted → kmedian.Returns points k s →
      (s.kfinal = s.st.medians.card ↔ kmedian.Counted points k) := by
    intro points k s weighted returns
    unfold Counted
    obtain ⟨-, -, ⟨few, kfinal, card⟩ | ⟨many, kfinal⟩⟩ := returns.cases weighted
    · rw [kfinal, card, or_iff_right (not_lt.mpr few)]
    · exact iff_of_true kfinal (.inl many)
  refine ⟨counts, ?_⟩
  intro chunksize centersize stream chunks
  cases chunks with
  | start => exact nofun
  | @chunk k idOffset centers points s before size weights returns meets =>
    have weighted : points.Weighted := fun i _ => by rw [weights i]; exact one_pos
    have kfinal := (counts points k s weighted returns).mpr meets
    obtain ⟨num, inside, -⟩ := returns.cases weighted
    unfold readChunk
    dsimp only
    split
    · exact nofun
    · rename_i fits
      rw [not_lt, kfinal, ← card_medians inside, ← (contcenters_assign s.st.points).1] at fits
      obtain ⟨copied, same⟩ := copycenters_some idOffset centers fits
      rw [same]
      exact nofun

section Sample

/-- Up to five medians, with one thread. -/
def fewKmedian : Kmedian ℚ := ⟨1, 5, by decide, 1, Nat.one_pos, floorConversion, fun _ => 1⟩

/-- Two points on a line. -/
def twoPoints : Points ℚ := ⟨2, 1, fun i => ⟨1, fun _ => i, 0, 0⟩⟩

/-- All random numbers are 0. -/
def fewChoice : fewKmedian.Choice :=
  ⟨fun _ => 0, fun _ => 0, ⟨fun _ => [0], fun _ => by decide⟩,
    ⟨id, fun _ => true, fun _ => 7, fun _ => 5, id⟩⟩

/-- The result of a call on the two points. -/
def twoState (k : Nat) : State ℚ := fewKmedian.stepBegin fewChoice (start twoPoints k)

/-- The early return for two points. -/
theorem twoState_returns (k : Nat) : fewKmedian.Returns twoPoints k (twoState k) :=
  ⟨.step (.start rfl) ⟨fewChoice, rfl⟩, .inl rfl⟩

/-- The sample ends with one median. -/
theorem sampleSteps_done :
    (sampleSteps 25).map (fun s => (s.phase, s.kfinal)) = some (.done, 1) := by
  decide +kernel

/-- A call that searches counts its median, and the centers of its chunk fit. -/
theorem kfinal_counts_sample : ∃ s ∈ sampleSteps 25, s.kfinal = 1 ∧
    s.kfinal = s.st.medians.card ∧
    readChunk 1 s ⟨0, fun _ _ => 0, fun _ => 0, fun _ => 0⟩ 0 ≠ .past := by
  obtain ⟨s, run, same⟩ := Option.map_eq_some_iff.mp sampleSteps_done
  obtain ⟨phase, kfinal⟩ := Prod.mk.inj same
  have weight : ∀ i, (samplePoints.p i).weight = 1 := by
    intro i
    unfold samplePoints
    dsimp only
    split <;> rfl
  have weighted : samplePoints.Weighted := fun i _ => by rw [weight i]; exact one_pos
  have returns : sampleKmedian.Returns samplePoints 0 s := ⟨sampleSteps_reached run, .inr phase⟩
  have counted : sampleKmedian.Counted samplePoints 0 := .inl (by decide)
  obtain ⟨counts, fits⟩ := kfinal_counts sampleKmedian
  exact ⟨s, run, kfinal, (counts samplePoints 0 s weighted returns).mpr counted,
    fits 3 1 _ (.chunk (.start _ rfl) le_rfl weight returns counted)⟩

/-- The first chunk has two points, and there is space for one center. -/
theorem kfinal_counts_fails :
    (fewKmedian.Returns twoPoints 0 (twoState 0) ∧
        (twoState 0).kfinal ≠ (twoState 0).st.medians.card) ∧
      fewKmedian.Chunks 2 1 (fun _ _ => True) .past := by
  have written : readChunk 1 (twoState 0) ⟨0, fun _ _ => 0, fun _ => 0, fun _ => 0⟩ 0 = .past := rfl
  refine ⟨⟨twoState_returns 0, by decide⟩, ?_⟩
  rw [← written]
  exact .chunk (.start _ rfl) le_rfl (fun _ => rfl) (twoState_returns 0) trivial

end Sample

end Kmedian

end P3arsec.Streamcluster
