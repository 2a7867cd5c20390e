import Mathlib

/-!
# The weights of the particles

`CalcWeights` lets the model weigh all particles in parallel and then removes those that are not
valid: the last particle takes the place of the removed one, with its weight and its flag, and the
place is looked at again. What is before the place is valid and what is removed is not, so that the
valid particles remain, each with its weight (`compact_spec`). When there are enough of them the
weights are turned into likelihoods and the first of the best particles is noted.
-/

namespace P3arsec.Bodytrack

variable {α P W : Type}

/-- What `CalcWeights` uses of the filter and its model. -/
structure ParticleFilter (W : Type) where
  /-- `mMinParticles`. -/
  minParticles : Int
  /-- The number of entries of `StdDevs`. -/
  stdDevs : Nat
  /-- `BetaAnnealingFactor` for weights. -/
  betaAnnealingFactor : List W → W
  /-- The exponential function. -/
  exp : W → W

/-- The variables of the loop that removes particles. -/
structure Compaction (P W : Type) where
  /-- `particles`. -/
  particles : List P
  /-- `mWeights`. -/
  weights : List W
  /-- `valid`. -/
  valid : List Bool
  /-- `i`. -/
  i : Nat
  /-- `minWeight`. -/
  minWeight : W

/-- The variables of the loop over the likelihoods. -/
structure Likelihoods (W : Type) where
  /-- `i`. -/
  i : Nat
  /-- The entries of `mWeights` that are likelihoods. -/
  weights : List W
  /-- `total`. -/
  total : W
  /-- `best`. -/
  best : W
  /-- `mBestParticle`. -/
  bestParticle : Nat

/-- What `CalcWeights` leaves. -/
structure Weighed (P W : Type) where
  /-- `particles`. -/
  particles : List P
  /-- `mWeights` after the removal. -/
  logWeights : List W
  /-- `minWeight`. -/
  minWeight : W
  /-- `mWeights`. -/
  weights : List W
  /-- `mBestParticle`. -/
  bestParticle : Nat

/-- `resize` of a vector. -/
def resize [Zero W] (vec : List W) (size : Nat) : List W :=
  vec.take size ++ List.replicate (size - vec.length) 0

/-- The parallel loop, in some order of its iterations. -/
def score (logLikelihood : Nat → W × Bool) (order : List Nat) (weights : List W)
    (valid : List Bool) : List W × List Bool :=
  order.foldl (fun arrays j =>
    (arrays.1.set j (logLikelihood j).1, arrays.2.set j (logLikelihood j).2)) (weights, valid)

/-- The element at `last` takes the place of the one at `i`, and the last element is removed. -/
def removeAt (list : List α) (i last : Nat) : Option (List α) := do
  let moved ← list[last]?
  let _ ← list[i]?
  some (list.set i moved).dropLast

/-- One round of the loop that removes particles. -/
def Compaction.round [LinearOrder W] (loop : Compaction P W) : Option (Compaction P W) := do
  let valid ← loop.valid[loop.i]?
  if valid then
    let weight ← loop.weights[loop.i]?
    some { loop with i := loop.i + 1, minWeight := min weight loop.minWeight }
  else
    let last := loop.particles.length - 1
    let particles ← removeAt loop.particles loop.i last
    let weights ← removeAt loop.weights loop.i last
    let valid ← removeAt loop.valid loop.i (loop.valid.length - 1)
    some { loop with particles := particles, weights := weights, valid := valid }

/-- The loop that removes particles. It is `none` when an index is out of bounds and when the loop
takes more than `fuel` rounds. -/
def compact [LinearOrder W] : Nat → Compaction P W → Option (Compaction P W)
  | 0, _ => none
  | fuel + 1, loop =>
    if loop.i < loop.particles.length then do
      let loop ← loop.round
      compact fuel loop
    else
      some loop

section Field

variable [Field W] [LinearOrder W]

/-- The start of `minWeight`. -/
def startWeight : W := ((10 ^ 30 : Nat) : W)

/-- One round of the loop over the likelihoods. -/
def Likelihoods.round (exp : W → W) (annealingFactor : W) (loop : Likelihoods W) (weight : W) :
    Likelihoods W :=
  let likelihood := exp (annealingFactor * weight)
  let loop := { loop with
    weights := loop.weights ++ [likelihood], total := loop.total + likelihood }
  let loop := if loop.i = 0 ∨ loop.best < likelihood then
    { loop with best := likelihood, bestParticle := loop.i } else loop
  { loop with i := loop.i + 1 }

/-- The part of `CalcWeights` that finds the best particle. -/
def likelihoods (filter : ParticleFilter W) (weights : List W) : Likelihoods W :=
  let annealingFactor := if 1 < filter.stdDevs then filter.betaAnnealingFactor weights else 1
  weights.foldl (Likelihoods.round filter.exp annealingFactor) ⟨0, [], 0, 0, 0⟩

/-- What `CalcWeights` does after the loop that removes particles. -/
def finish (filter : ParticleFilter W) (loop : Compaction P W) : Weighed P W :=
  if (loop.particles.length : Int) < filter.minParticles then
    ⟨loop.particles, loop.weights, loop.minWeight, loop.weights, 0⟩
  else
    let best := likelihoods filter (loop.weights.map fun weight => weight - loop.minWeight)
    ⟨loop.particles, loop.weights, loop.minWeight,
      best.weights.map fun weight => weight * (1 / best.total), best.bestParticle⟩

/-- `CalcWeights`, where the parallel loop runs in some order. -/
def calcWeights (filter : ParticleFilter W) (logLikelihood : Nat → W × Bool) (order : List Nat)
    (weights : List W) (particles : List P) (fuel : Nat) : Option (Weighed P W) := do
  let arrays := score logLikelihood order (resize weights particles.length)
    (List.replicate particles.length false)
  let loop ← compact fuel ⟨particles, arrays.1, arrays.2, 0, startWeight⟩
  some (finish filter loop)

end Field

section Removal

variable {list rest : List α}

/-- The rest of a list when its last element is put in front. -/
def moved (rest : List α) : List α := rest.getLast?.toList ++ rest.dropLast

/-- The move of the last element permutes the rest. -/
theorem moved_perm : (moved rest).Perm rest := by
  rcases rest.eq_nil_or_concat with rfl | ⟨front, last, rfl⟩
  · rfl
  · simpa [moved] using (List.perm_append_singleton last front).symm

/-- The move does not look at the elements. -/
theorem map_moved {β : Type} (f : α → β) : moved (rest.map f) = (moved rest).map f := by
  rcases rest.eq_nil_or_concat with rfl | ⟨front, last, rfl⟩
  · rfl
  · simp [moved]

/-- The last element takes the place of a removed one, also when it is the removed one. -/
theorem removeAt_append (kept : List α) (removed : α) (rest : List α) :
    removeAt (kept ++ removed :: rest) kept.length (kept.length + rest.length) =
      some (kept ++ moved rest) := by
  rcases rest.eq_nil_or_concat with rfl | ⟨front, last, rfl⟩
  · simp [removeAt, moved]
  · have place : (kept ++ removed :: (front ++ [last]))[kept.length + (front ++ [last]).length]? =
        some last := by
      simp
    have here : (kept ++ removed :: (front ++ [last]))[kept.length]? = some removed := by simp
    have filled : (kept ++ removed :: (front ++ [last])).set kept.length last =
        (kept ++ last :: front) ++ [last] := by
      simp
    simp only [removeAt, List.concat_eq_append, place, here, Option.bind_eq_bind,
      Option.bind_some]
    rw [filled, List.dropLast_concat]
    simp [moved]

end Removal

section Compact

variable [LinearOrder W] {start : W}

/-- The particles with their weights and flags. -/
abbrev Entries (P W : Type) := List (P × W × Bool)

/-- The least of some weights and a start value. -/
def least (start : W) (entries : Entries P W) : W :=
  entries.foldl (fun least entry => min entry.2.1 least) start

/-- The loop when it has kept some particles and not looked at the rest. -/
def between (start : W) (kept rest : Entries P W) : Compaction P W where
  particles := (kept ++ rest).map (·.1)
  weights := (kept ++ rest).map (·.2.1)
  valid := (kept ++ rest).map (·.2.2)
  i := kept.length
  minWeight := least start kept

/-- A valid particle is kept. -/
theorem round_keeps {entry : P × W × Bool} (valid : entry.2.2 = true) (kept rest : Entries P W) :
    (between start kept (entry :: rest)).round = some (between start (kept ++ [entry]) rest) := by
  simp [Compaction.round, between, least, valid]

/-- A particle that is not valid is removed. -/
theorem round_removes {entry : P × W × Bool} (invalid : entry.2.2 = false)
    (kept rest : Entries P W) :
    (between start kept (entry :: rest)).round = some (between start kept (moved rest)) := by
  have removed : ∀ {β : Type} (f : P × W × Bool → β),
      removeAt ((kept ++ entry :: rest).map f) kept.length (kept.length + rest.length) =
        some ((kept ++ moved rest).map f) := by
    intro β f
    have mapped := removeAt_append (kept.map f) (f entry) (rest.map f)
    rw [List.length_map, List.length_map, map_moved] at mapped
    simpa using mapped
  have flag : ((kept ++ entry :: rest).map (·.2.2))[kept.length]? = some false := by
    simp [invalid]
  have last : ((kept ++ entry :: rest).map (·.1)).length - 1 = kept.length + rest.length := by
    simp
  have last' : ((kept ++ entry :: rest).map (·.2.2)).length - 1 = kept.length + rest.length := by
    simp
  simp only [Compaction.round, between, flag, last, last', removed, Option.bind_eq_bind,
    Option.bind_some]
  rfl

/-- The loop ends with the valid particles. -/
theorem compact_spec (count : Nat) (kept rest : Entries P W) (length : rest.length = count) :
    ∃ final, compact (count + 1) (between start kept rest) = some (between start final []) ∧
      final.Perm (kept ++ rest.filter (·.2.2)) := by
  induction count generalizing kept rest with
  | zero =>
    obtain rfl := List.length_eq_zero_iff.mp length
    refine ⟨kept, ?_, by simp⟩
    rw [compact, if_neg (by simp [between])]
  | succ count ih =>
    obtain ⟨entry, rest, rfl⟩ := List.exists_cons_of_length_eq_add_one length
    have more : (between start kept (entry :: rest)).i <
        (between start kept (entry :: rest)).particles.length := by
      simp [between]
    cases valid : entry.2.2 with
    | true =>
      obtain ⟨final, ends, perm⟩ := ih (kept ++ [entry]) rest (by simpa using length)
      refine ⟨final, ?_, ?_⟩
      · rw [compact, if_pos more, round_keeps valid]
        exact ends
      · simpa [List.filter_cons_of_pos, valid] using perm
    | false =>
      have same : (moved rest).length = count := by
        rw [moved_perm.length_eq]
        simpa using length
      obtain ⟨final, ends, perm⟩ := ih kept (moved rest) same
      refine ⟨final, ?_, ?_⟩
      · rw [compact, if_pos more, round_removes valid]
        exact ends
      · apply perm.trans
        rw [List.filter_cons_of_neg (by simp [valid])]
        exact (moved_perm.filter _).append_left kept

/-- The least of some weights and a start value is one of them and below them. -/
theorem least_spec (entries : Entries P W) :
    least start entries ∈ start :: entries.map (·.2.1) ∧
      ∀ weight ∈ start :: entries.map (·.2.1), least start entries ≤ weight := by
  induction entries using List.reverseRecOn with
  | nil => simp [least]
  | append_singleton entries entry ih =>
    obtain ⟨member, below⟩ := ih
    have last : least start (entries ++ [entry]) = min entry.2.1 (least start entries) := by
      simp [least]
    rw [last]
    constructor
    · rcases min_choice entry.2.1 (least start entries) with same | same
      · rw [same]
        simp
      · rw [same]
        rcases List.mem_cons.mp member with first | other
        · rw [first]
          exact List.mem_cons_self
        · simp only [List.map_append, List.mem_cons, List.mem_append]
          exact Or.inr (Or.inl other)
    · intro weight known
      rw [List.map_append, ← List.cons_append, List.mem_append] at known
      rcases known with known | known
      · exact (min_le_right _ _).trans (below weight known)
      · rw [List.map_singleton, List.mem_singleton] at known
        rw [known]
        exact min_le_left _ _

end Compact

section Score

variable {logLikelihood : Nat → W × Bool}

/-- An iteration sets the entries of its particle. -/
theorem score_get (order : List Nat) (weights : List W) (valid : List Bool) (j : Nat) :
    (score logLikelihood order weights valid).1[j]? =
        (if j ∈ order ∧ j < weights.length then some (logLikelihood j).1 else weights[j]?) ∧
      (score logLikelihood order weights valid).2[j]? =
        if j ∈ order ∧ j < valid.length then some (logLikelihood j).2 else valid[j]? := by
  induction order generalizing weights valid with
  | nil => simp [score]
  | cons first order ih =>
    have rest := ih (weights.set first (logLikelihood first).1)
      (valid.set first (logLikelihood first).2)
    simp only [score, List.foldl_cons, List.length_set] at rest ⊢
    rw [rest.1, rest.2]
    by_cases later : j ∈ order
    · simp only [later, true_and, List.mem_cons, or_true]
      constructor <;> split <;> simp_all
    · by_cases here : j = first
      · subst here
        simp only [later, false_and, if_false, List.mem_cons, true_or, true_and]
        constructor <;> split <;> simp_all
      · simp [later, here, List.getElem?_set_ne (Ne.symm here)]

/-- The entries that the parallel loop makes. -/
def scored (logLikelihood : Nat → W × Bool) (particles : List P) : Entries P W :=
  particles.zipIdx.map fun pair => (pair.1, logLikelihood pair.2)

/-- In every order the parallel loop makes the entries of all particles. -/
theorem score_eq (particles : List P) {order : List Nat}
    (all : order.Perm (List.range particles.length)) {weights : List W} {valid : List Bool}
    (weightsLength : weights.length = particles.length)
    (validLength : valid.length = particles.length) :
    score logLikelihood order weights valid =
      ((scored logLikelihood particles).map (·.2.1), (scored logLikelihood particles).map (·.2.2))
      := by
  have known : ∀ j, j ∈ order ↔ j < particles.length := by
    intro j
    rw [all.mem_iff, List.mem_range]
  apply Prod.ext
  · apply List.ext_getElem?
    intro j
    rw [(score_get order weights valid j).1]
    simp only [known, weightsLength]
    by_cases inside : j < particles.length
    · simp [scored, inside]
    · simp [scored, inside, weightsLength]
  · apply List.ext_getElem?
    intro j
    rw [(score_get order weights valid j).2]
    simp only [known, validLength]
    by_cases inside : j < particles.length
    · simp [scored, inside]
    · simp [scored, inside, validLength]

end Score

section Best

variable [Field W] [LinearOrder W]

/-- A greater likelihood becomes the best one. -/
theorem round_better {exp : W → W} {annealingFactor weight : W} {loop : Likelihoods W}
    (better : loop.i = 0 ∨ loop.best < exp (annealingFactor * weight)) :
    (loop.round exp annealingFactor weight).best = exp (annealingFactor * weight) ∧
      (loop.round exp annealingFactor weight).bestParticle = loop.i := by
  simp only [Likelihoods.round, if_pos better, and_self]

/-- Another one leaves the best as it is. -/
theorem round_worse {exp : W → W} {annealingFactor weight : W} {loop : Likelihoods W}
    (worse : ¬ (loop.i = 0 ∨ loop.best < exp (annealingFactor * weight))) :
    (loop.round exp annealingFactor weight).best = loop.best ∧
      (loop.round exp annealingFactor weight).bestParticle = loop.bestParticle := by
  simp only [Likelihoods.round, if_neg worse, and_self]

/-- The index goes on. -/
theorem round_i (exp : W → W) (annealingFactor weight : W) (loop : Likelihoods W) :
    (loop.round exp annealingFactor weight).i = loop.i + 1 := by
  simp only [Likelihoods.round]
  split <;> rfl

/-- The loop over the likelihoods notes a particle that has the greatest one. -/
theorem foldl_likelihoods (exp : W → W) (annealingFactor : W) (weights : List W) :
    let loop := weights.foldl (Likelihoods.round exp annealingFactor) ⟨0, [], 0, 0, 0⟩
    loop.i = weights.length ∧
      (weights ≠ [] → ∃ weight, weights[loop.bestParticle]? = some weight ∧
        loop.best = exp (annealingFactor * weight) ∧
        ∀ other ∈ weights, exp (annealingFactor * other) ≤ loop.best) := by
  induction weights using List.reverseRecOn with
  | nil => simp
  | append_singleton weights weight ih =>
    simp only [List.foldl_append, List.foldl_cons, List.foldl_nil] at ih ⊢
    set loop := weights.foldl (Likelihoods.round exp annealingFactor) ⟨0, [], 0, 0, 0⟩
    obtain ⟨place, best⟩ := ih
    refine ⟨by rw [round_i, place, List.length_append, List.length_singleton], fun _ => ?_⟩
    by_cases better : loop.i = 0 ∨ loop.best < exp (annealingFactor * weight)
    · obtain ⟨value, at_⟩ := round_better better
      rw [value, at_, place]
      refine ⟨weight, by simp, rfl, fun other known => ?_⟩
      rcases List.mem_append.mp known with known | known
      · rcases better with first | more
        · rw [List.length_eq_zero_iff.mp (place.symm.trans first)] at known
          cases known
        · obtain ⟨-, -, -, below⟩ := best (List.ne_nil_of_mem known)
          exact (below other known).trans more.le
      · rw [List.mem_singleton.mp known]
    · have some_ : weights ≠ [] := by
        rintro rfl
        exact better (Or.inl place)
      obtain ⟨known, here, value, below⟩ := best some_
      obtain ⟨same, at_⟩ := round_worse better
      rw [same, at_]
      refine ⟨known, ?_, value, fun other member => ?_⟩
      · rw [List.getElem?_append_left (List.getElem?_eq_some_iff.mp here).1]
        exact here
      · rcases List.mem_append.mp member with member | member
        · exact below other member
        · rw [List.mem_singleton.mp member]
          exact not_lt.mp fun more => better (Or.inr more)

/-- The end of the loop keeps the particles and their weights. -/
theorem finish_same (filter : ParticleFilter W) (loop : Compaction P W) :
    (finish filter loop).particles = loop.particles ∧
      (finish filter loop).logWeights = loop.weights ∧
      (finish filter loop).minWeight = loop.minWeight := by
  rw [finish]
  split <;> exact ⟨rfl, rfl, rfl⟩

variable [IsStrictOrderedRing W]

/-- A particle with the greatest likelihood has the greatest weight. -/
theorem likelihoods_best (filter : ParticleFilter W) (increasing : StrictMono filter.exp)
    (positive : ∀ weights, 0 < filter.betaAnnealingFactor weights) {weights : List W}
    (some_ : weights ≠ []) :
    ∃ weight, weights[(likelihoods filter weights).bestParticle]? = some weight ∧
      ∀ other ∈ weights, other ≤ weight := by
  rw [likelihoods]
  set annealingFactor := if 1 < filter.stdDevs then filter.betaAnnealingFactor weights else 1
    with factor
  have above : 0 < annealingFactor := by
    rw [factor]
    split
    · exact positive weights
    · exact one_pos
  obtain ⟨weight, here, value, below⟩ :=
    (foldl_likelihoods filter.exp annealingFactor weights).2 some_
  refine ⟨weight, here, fun other known => ?_⟩
  have le := below other known
  rw [value, increasing.le_iff_le] at le
  exact le_of_mul_le_mul_left le above

/-- When there are enough particles, and there is one, `CalcWeights` has found a best particle. -/
theorem finish_best (filter : ParticleFilter W) (increasing : StrictMono filter.exp)
    (positive : ∀ weights, 0 < filter.betaAnnealingFactor weights) (start : W)
    {final : Entries P W} (enough : filter.minParticles ≤ final.length) (some_ : final ≠ []) :
    ∃ best, final[(finish filter (between start final [])).bestParticle]? = some best ∧
      ∀ other ∈ final, other.2.1 ≤ best.2.1 := by
  have goes : ¬ ((between start final []).particles.length : Int) < filter.minParticles := by
    simpa [between] using enough
  rw [finish, if_neg goes]
  set shifted := (between start final []).weights.map fun weight =>
    weight - (between start final []).minWeight with shifted_eq
  have entries : shifted = final.map fun entry => entry.2.1 - least start final := by
    simp [shifted_eq, between]
  obtain ⟨weight, here, above⟩ := likelihoods_best filter increasing positive
    (show shifted ≠ [] by simpa [entries] using some_)
  simp only
  rw [entries, List.getElem?_map, Option.map_eq_some_iff] at here
  obtain ⟨best, here, rfl⟩ := here
  refine ⟨best, by rw [entries]; exact here, fun other member => ?_⟩
  have le := above (other.2.1 - least start final) (by
    rw [entries]
    exact List.mem_map.mpr ⟨other, member, rfl⟩)
  exact (sub_le_sub_iff_right _).mp le

/-- `CalcWeights` ends, in every order of its parallel loop, with the valid particles, each with its
weight, and with the least weight. When there are enough of them, and there is one, it has found a
best particle. -/
theorem calcWeights_correct (filter : ParticleFilter W) (logLikelihood : Nat → W × Bool)
    (order : List Nat) (weights : List W) (particles : List P)
    (all : order.Perm (List.range particles.length)) (increasing : StrictMono filter.exp)
    (positive : ∀ weights, 0 < filter.betaAnnealingFactor weights) :
    ∃ fuel result, ∃ remaining : Entries P W,
      calcWeights filter logLikelihood order weights particles fuel = some result ∧
        remaining.Perm ((scored logLikelihood particles).filter (·.2.2)) ∧
        result.particles = remaining.map (·.1) ∧ result.logWeights = remaining.map (·.2.1) ∧
        (result.minWeight ∈ startWeight :: result.logWeights ∧
          ∀ weight ∈ startWeight :: result.logWeights, result.minWeight ≤ weight) ∧
        (filter.minParticles ≤ remaining.length → remaining ≠ [] →
          ∃ best, remaining[result.bestParticle]? = some best ∧
            ∀ other ∈ remaining, other.2.1 ≤ best.2.1) := by
  have resized : (resize weights particles.length).length = particles.length := by
    simp only [resize, List.length_append, List.length_take, List.length_replicate]
    omega
  have arrays : score logLikelihood order (resize weights particles.length)
      (List.replicate particles.length false) = _ :=
    score_eq particles all resized List.length_replicate
  have begins : (⟨particles, (scored logLikelihood particles).map (·.2.1),
      (scored logLikelihood particles).map (·.2.2), 0, startWeight⟩ : Compaction P W) =
        between startWeight [] (scored logLikelihood particles) := by
    simp [between, least, scored, Function.comp_def, List.zipIdx_map_fst]
  obtain ⟨final, ends, perm⟩ : ∃ final,
      compact ((scored logLikelihood particles).length + 1)
          (between startWeight [] (scored logLikelihood particles)) =
        some (between startWeight final []) ∧
      final.Perm ([] ++ (scored logLikelihood particles).filter (·.2.2)) :=
    compact_spec _ [] _ rfl
  obtain ⟨particles_eq, weights_eq, min_eq⟩ := finish_same filter (between startWeight final [])
  refine ⟨(scored logLikelihood particles).length + 1,
    finish filter (between startWeight final []), final, ?_, perm, ?_, ?_, ?_, ?_⟩
  · rw [calcWeights, arrays]
    simp only [begins, ends, Option.bind_eq_bind, Option.bind_some]
  · rw [particles_eq]
    simp [between]
  · rw [weights_eq]
    simp [between]
  · rw [min_eq, weights_eq]
    simpa [between] using (least_spec final : least startWeight final ∈ _ ∧ _)
  · intro enough some_
    exact finish_best filter increasing positive startWeight enough some_

end Best

/-- A filter that takes the exponential for the identity. -/
def plainFilter (minParticles : Int) : ParticleFilter ℚ where
  minParticles := minParticles
  stdDevs := 2
  betaAnnealingFactor _ := 1
  exp weight := weight

/-- The second of three particles is not valid. -/
def secondInvalid (j : Nat) : ℚ × Bool := (j, j != 1)

/-- Three particles, of which the second is invalid. -/
theorem calcWeights_correct_sample :
    ∃ fuel result, ∃ remaining : Entries Char ℚ,
      calcWeights (plainFilter 1) secondInvalid [2, 0, 1] [] ['a', 'b', 'c'] fuel = some result ∧
        remaining.Perm ((scored secondInvalid ['a', 'b', 'c']).filter (·.2.2)) ∧
        result.particles = remaining.map (·.1) ∧ result.logWeights = remaining.map (·.2.1) ∧
        (result.minWeight ∈ startWeight :: result.logWeights ∧
          ∀ weight ∈ startWeight :: result.logWeights, result.minWeight ≤ weight) ∧
        ((plainFilter 1).minParticles ≤ remaining.length → remaining ≠ [] →
          ∃ best, remaining[result.bestParticle]? = some best ∧
            ∀ other ∈ remaining, other.2.1 ≤ best.2.1) :=
  calcWeights_correct (plainFilter 1) secondInvalid [2, 0, 1] [] ['a', 'b', 'c'] (by decide)
    strictMono_id (fun _ => one_pos)

/-- Without a least number of particles, and when none is valid, no particle is at the index that is
noted as the best one. -/
theorem calcWeights_without_best :
    ∃ result, calcWeights (plainFilter 0) (fun _ => (0, false)) [0] [] ['a'] 2 = some result ∧
      (plainFilter 0).minParticles ≤ result.particles.length ∧
      result.particles[result.bestParticle]? = none :=
  ⟨_, rfl, by decide, rfl⟩

end P3arsec.Bodytrack
