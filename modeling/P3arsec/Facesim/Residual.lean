import P3arsec.Facesim.ConjugateGradients

/-!
# The residual of a Newton step

The threaded branch does what the serial one does when the ranges split the nodes (`threaded_eq`).
In every iteration `R` is the residual of the current solution with the entries of attached nodes
set to zero, and `rho` is its squared norm. Where the force differential is negative definite on the
other nodes no division is by zero.
-/

namespace P3arsec.Facesim

open P3arsec.Lib

variable {K : Type*} [Field K] {N m : Nat}

section Loops

omit [Field K] in
/-- A loop that sets entries. -/
theorem foldl_set (list : List (Fin N)) (value X : Full K N) (i : Fin N) :
    list.foldl (fun X i => modifyAt X i fun _ => value i) X i =
      if i ∈ list then value i else X i := by
  induction list generalizing X with
  | nil => rfl
  | cons first list ih =>
    rw [List.foldl_cons, ih]
    by_cases later : i ∈ list
    · simp [later]
    · by_cases here : i = first
      · subst here
        simp [later]
      · simp [later, here]

/-- The listed nodes are set to zero. -/
theorem zeroNodes_apply (list : List (Fin N)) (X : Full K N) (i : Fin N) :
    zeroNodes list X i = if i ∈ list then 0 else X i :=
  foldl_set list 0 X i

/-- Tasks set the nodes of their parts to zero. -/
theorem foldl_zeroNodes {ι : Type*} (tasks : List ι) (part : ι → List (Fin N)) (X : Full K N)
    (i : Fin N) :
    tasks.foldl (fun X task => zeroNodes (part task) X) X i =
      if ∃ task ∈ tasks, i ∈ part task then 0 else X i := by
  induction tasks generalizing X with
  | nil => simp
  | cons task tasks ih =>
    rw [List.foldl_cons, ih, zeroNodes_apply]
    by_cases later : ∃ task ∈ tasks, i ∈ part task
    · simp [later]
    · by_cases here : i ∈ part task
      · simp [here]
      · simp [later, here]

variable [LinearOrder K]

/-- What the second part of an iteration leaves after some nodes. -/
theorem foldl_visit (alpha : K) (S negativeQ : Full K N) {list : List (Fin N)}
    (nodup : list.Nodup) (v : Values K N) :
    list.foldl (Values.visit alpha S negativeQ) v =
      { dX := fun i => if i ∈ list then v.dX i + alpha • S i else v.dX i
        R := fun i => if i ∈ list then v.R i + alpha • negativeQ i else v.R i
        rhoNew := v.rhoNew +
          (list.map fun i => magnitudeSquared (v.R i + alpha • negativeQ i)).sum
        supnorm := list.foldl
          (fun most i => max most (magnitudeSquared (v.R i + alpha • negativeQ i)))
          v.supnorm } := by
  induction list generalizing v with
  | nil => simp
  | cons first list ih =>
    obtain ⟨fresh, nodup⟩ := List.nodup_cons.mp nodup
    have apart : ∀ i ∈ list, i ≠ first := by
      rintro i member rfl
      exact fresh member
    have same : ∀ i ∈ list, (Values.visit alpha S negativeQ v first).R i = v.R i := by
      intro i member
      simp only [Values.visit]
      exact modifyAt_ne _ _ (apart i member)
    rw [List.foldl_cons, ih nodup]
    simp only [Values.mk.injEq]
    refine ⟨?_, ?_, ?_, ?_⟩
    · funext i
      by_cases here : i = first
      · subst here
        simp [fresh, Values.visit]
      · simp [here, Values.visit]
    · funext i
      by_cases here : i = first
      · subst here
        simp [fresh, Values.visit]
      · simp [here, Values.visit]
    · rw [List.map_cons, List.sum_cons, ← add_assoc]
      congr 2
      apply List.map_congr_left
      intro i member
      rw [same i member]
    · rw [List.foldl_cons]
      apply List.foldl_ext
      intro most i member
      rw [same i member]

end Loops

namespace Deformable

variable (body : Deformable K N m)

/-- The ranges split the nodes. -/
def Splits : Prop := ∀ i : Fin N, ∃! p : Fin m, i ∈ nodes N (body.particleRanges p)

section

-- the instance has a name, so that membership is the same term in all builds
attribute [local instance] lawfulBEq_fin

/-- A vector for each node, with the entries of attached nodes set to zero. -/
def free (X : Full K N) : Full K N := fun i =>
  if i ∈ body.attachedNodes.flatten then 0 else X i

end

variable {body}

namespace Splits

/-- The ranges, one after the other, have each node once. -/
theorem perm (splits : body.Splits) {tasks : List (Fin m)} (all : tasks.Perm (List.finRange m)) :
    (tasks.flatMap fun p => nodes N (body.particleRanges p)).Perm (List.finRange N) := by
  refine (List.perm_ext_iff_of_nodup ?_ (List.nodup_finRange N)).mpr ?_
  · refine nodup_flatMap_of_unique (all.nodup_iff.mpr (List.nodup_finRange m))
      (fun _ _ => nodup_nodes _) ?_
    intro p _ q _ i here there
    exact (splits i).unique here there
  · intro i
    obtain ⟨p, here, -⟩ := splits i
    simp only [List.mem_flatMap, List.mem_finRange, iff_true]
    exact ⟨p, all.mem_iff.mpr (List.mem_finRange p), here⟩

/-- A sum over the partitions of sums over their nodes. -/
theorem sum (splits : body.Splits) (amount : Fin N → K) :
    ((List.finRange m).map fun p => ((nodes N (body.particleRanges p)).map amount).sum).sum =
      ((List.finRange N).map amount).sum := by
  rw [← ((splits.perm (.refl _)).map amount).sum_eq, List.map_flatMap, List.flatMap_def,
    List.sum_flatten, List.map_map]
  rfl

/-- What holds of the nodes of all partitions holds of all nodes. -/
theorem forall_iff (splits : body.Splits) {holds : Fin N → Prop} :
    (∀ p, ∀ i ∈ nodes N (body.particleRanges p), holds i) ↔ ∀ i, holds i := by
  constructor
  · intro parts i
    obtain ⟨p, here, -⟩ := splits i
    exact parts p i here
  · intro all p i _
    exact all i

end Splits

/-- A loop that subtracts amounts. -/
theorem foldl_sub_map (amount : Fin N → K) (first : K) (list : List (Fin N)) :
    list.foldl (fun sum i => sum - amount i) first = first - (list.map amount).sum := by
  induction list generalizing first with
  | nil => simp
  | cons i list ih => rw [List.foldl_cons, ih, List.map_cons, List.sum_cons, sub_sub]

variable [LinearOrder K]

/-- The serial loop sets the attached nodes to zero. -/
theorem serial_zeroOut (X : Full K N) : (serial body).zeroOut X = body.free X := by
  funext i
  refine (foldl_zeroNodes body.attachedNodes id X i).trans ?_
  simp [free, List.mem_flatten]

/-- So do the tasks, in every order. -/
theorem threaded_zeroOut (splits : body.Splits) {order : Fin 4 → List (Fin m)}
    (all : ∀ phase, (order phase).Perm (List.finRange m)) (X : Full K N) :
    (threaded body order).zeroOut X = body.free X := by
  funext i
  refine (foldl_zeroNodes (order 0) body.attachedNodesParallel X i).trans ?_
  obtain ⟨p, here, -⟩ := splits i
  have member : p ∈ order 0 := (all 0).mem_iff.mpr (List.mem_finRange p)
  have same : (∃ p ∈ order 0, i ∈ body.attachedNodesParallel p) ↔
      i ∈ body.attachedNodes.flatten := by
    simp only [attachedNodesParallel, List.mem_filter, decide_eq_true_eq]
    constructor
    · rintro ⟨_, _, attached, _⟩
      exact attached
    · intro attached
      exact ⟨p, member, attached, here⟩
  simp only [free, same]

/-- The pair of a sum and a maximum. -/
theorem foldl_pair (amount : Fin N → K) (rho supnorm : K) (list : List (Fin N)) :
    list.foldl (fun (rho, supnorm) i => (rho + amount i, max supnorm (amount i))) (rho, supnorm) =
      (rho + (list.map amount).sum, list.foldl (fun most i => max most (amount i)) supnorm) := by
  induction list generalizing rho supnorm with
  | nil => simp
  | cons first list ih =>
    rw [List.foldl_cons, ih, List.map_cons, List.sum_cons, add_assoc, List.foldl_cons]

end Deformable

section Branches

variable [LinearOrder K] {body : Deformable K N m}

/-- The norms are measured by the caller in both versions. -/
theorem threaded_measure (splits : body.Splits) (order : Fin 4 → List (Fin m)) (R : Full K N) :
    (threaded body order).measure R = (serial body).measure R := by
  refine Eq.trans ?_ (Deformable.foldl_pair _ 0 0 _).symm
  refine Prod.ext ?_ ?_
  · simp only [threaded, foldl_add_map, zero_add]
    exact splits.sum fun i => dotProduct (R i) (R i)
  · refine eq_of_forall_ge_iff fun bound => ?_
    simp only [threaded, foldl_max_le_iff, List.mem_finRange, forall_const]
    constructor
    · rintro ⟨low, parts⟩
      exact ⟨low, splits.forall_iff.mp fun p => (parts p).2⟩
    · rintro ⟨low, all⟩
      exact ⟨low, fun p => ⟨low, fun i _ => all i⟩⟩

omit [LinearOrder K] in
/-- The first helpers together make the search direction. -/
theorem helperI_all (splits : body.Splits) {tasks : List (Fin m)}
    (all : tasks.Perm (List.finRange m)) (beta : K) (R S : Full K N) :
    tasks.foldl (body.helperI beta R) S = fun i => beta • S i + R i := by
  have perm := splits.perm all
  have flat : tasks.foldl (body.helperI beta R) S =
      (tasks.flatMap fun p => nodes N (body.particleRanges p)).foldl
        (fun S i => modifyAt S i (beta • · + R i)) S := by
    rw [List.foldl_flatMap]
    rfl
  rw [flat]
  exact foldl_modifyAt_all (perm.nodup_iff.mpr (List.nodup_finRange N))
    (fun i => perm.mem_iff.mpr (List.mem_finRange i)) (fun i x => beta • x + R i) S

omit [LinearOrder K] in
/-- The force differential that a partition finds for its nodes. -/
theorem helperII_apply (S : Full K N) (state : Full K N × (Fin m → K)) (p : Fin m) (i : Fin N) :
    (body.helperII S state p).1 i =
      if i ∈ nodes N (body.particleRanges p) then body.free (body.forceDifferential S) i
      else state.1 i := by
  simp only [Deformable.helperII, zeroNodes_apply, foldl_set, Deformable.attachedNodesParallel,
    Deformable.free, List.mem_filter, decide_eq_true_eq]
  by_cases here : i ∈ nodes N (body.particleRanges p)
  · simp [here]
  · simp [here]

omit [LinearOrder K] in
/-- The second helpers together make the force differential and the parts of its product with the
direction. -/
theorem helperII_all (splits : body.Splits) {tasks : List (Fin m)}
    (all : tasks.Perm (List.finRange m)) (S : Full K N) (state : Full K N × (Fin m → K)) :
    (tasks.foldl (body.helperII S) state).1 = body.free (body.forceDifferential S) ∧
      ∀ p, (tasks.foldl (body.helperII S) state).2 p =
        -((nodes N (body.particleRanges p)).map fun i =>
          dotProduct (S i) (body.free (body.forceDifferential S) i)).sum := by
  have done := (foldl_forEach (body.helperII S) (fun _ => True) (fun _ _ => True)
    (fun p state => (∀ i ∈ nodes N (body.particleRanges p),
        state.1 i = body.free (body.forceDifferential S) i) ∧
      state.2 p = -((nodes N (body.particleRanges p)).map fun i =>
        dotProduct (S i) (body.free (body.forceDifferential S) i)).sum)
    tasks (all.nodup_iff.mpr (List.nodup_finRange m)) ?_ (fun _ _ _ _ _ _ _ _ _ => trivial) ?_
    state trivial fun _ _ => trivial).2
  · refine ⟨?_, fun p => (done p (all.mem_iff.mpr (List.mem_finRange p))).2⟩
    funext i
    obtain ⟨p, here, -⟩ := splits i
    exact (done p (all.mem_iff.mpr (List.mem_finRange p))).1 i here
  · intro state p _ _ _
    have own : ∀ i ∈ nodes N (body.particleRanges p),
        (body.helperII S state p).1 i = body.free (body.forceDifferential S) i := by
      intro i here
      rw [helperII_apply, if_pos here]
    refine ⟨trivial, own, ?_⟩
    have partial' : (body.helperII S state p).2 p =
        -(nodes N (body.particleRanges p)).foldl
          (fun sum i => sum + dotProduct (S i) ((body.helperII S state p).1 i)) 0 := by
      simp only [Deformable.helperII, Function.update_self]
    rw [partial', foldl_add_map, zero_add]
    congr 2
    apply List.map_congr_left
    intro i here
    rw [own i here]
  · rintro state p _ q _ apart _ _ ⟨found, sum⟩
    refine ⟨?_, ?_⟩
    · intro i here
      rw [helperII_apply, if_neg, found i here]
      intro there
      exact apart ((splits i).unique here there)
    · rw [← sum]
      exact Function.update_of_ne apart _ _

/-- The tasks search in the direction of the serial loop. -/
theorem threaded_search (splits : body.Splits) {order : Fin 4 → List (Fin m)}
    (all : ∀ phase, (order phase).Perm (List.finRange m)) (beta : K) (R S negativeQ : Full K N) :
    (threaded body order).search beta R S negativeQ = (serial body).search beta R S negativeQ := by
  have first := helperI_all splits (all 1) beta R S
  obtain ⟨second, sums⟩ := helperII_all splits (all 2) (fun i => beta • S i + R i)
    (negativeQ, fun _ => 0)
  have zero : (serial body).zeroOut (body.forceDifferential fun i => beta • S i + R i) = _ :=
    Deformable.serial_zeroOut _
  simp only [serial] at zero
  simp only [threaded, serial, first, second, zero, Deformable.foldl_sub_map, zero_sub,
    Prod.mk.injEq, true_and]
  rw [← splits.sum, List.sum_neg, List.map_map]
  congr 1
  apply List.map_congr_left
  intro p _
  rw [sums p]
  rfl

end Branches

section Update

variable [LinearOrder K] {body : Deformable K N m}

/-- A bound of the maximum is one of all entries. -/
theorem arrayMax_le_iff {list : List K} {bound : K} (low : ∀ x ∈ list, 0 ≤ x) (zero : 0 ≤ bound) :
    arrayMax list ≤ bound ↔ ∀ x ∈ list, x ≤ bound := by
  have most := foldl_max_le_iff (id : K → K) (list.headD 0) bound list
  simp only [id_eq] at most
  rw [arrayMax, most, and_iff_right_iff_imp]
  intro all
  cases list with
  | nil => exact zero
  | cons first list => exact all first List.mem_cons_self

/-- The maximum of squares is not negative. -/
theorem arrayMax_nonneg {list : List K} (low : ∀ x ∈ list, 0 ≤ x) : 0 ≤ arrayMax list := by
  have first := ((foldl_max_le_iff (id : K → K) (list.headD 0) (arrayMax list) list).mp le_rfl).1
  refine le_trans ?_ first
  cases list with
  | nil => exact le_rfl
  | cons x list => exact low x List.mem_cons_self

/-- The third helpers together go along the direction and measure the residual. -/
theorem helperIII_all (splits : body.Splits) {tasks : List (Fin m)}
    (all : tasks.Perm (List.finRange m)) (alpha : K) (S negativeQ dX R : Full K N) :
    tasks.foldl (body.helperIII alpha S negativeQ)
        { dX, R, rhoNewPartial := fun _ => 0, supnormPartial := fun _ => 0 } =
      { dX := fun i => dX i + alpha • S i
        R := fun i => R i + alpha • negativeQ i
        rhoNewPartial := fun p => ((nodes N (body.particleRanges p)).map fun i =>
          magnitudeSquared (R i + alpha • negativeQ i)).sum
        supnormPartial := fun p => (nodes N (body.particleRanges p)).foldl
          (fun most i => max most (magnitudeSquared (R i + alpha • negativeQ i))) 0 } := by
  have apart : ∀ p q : Fin m, q ≠ p → ∀ i ∈ nodes N (body.particleRanges q),
      i ∉ nodes N (body.particleRanges p) := fun p q distinct i here there =>
    distinct ((splits i).unique here there)
  have done := (foldl_forEach (body.helperIII alpha S negativeQ) (fun _ => True)
    (fun p state => (∀ i ∈ nodes N (body.particleRanges p), state.dX i = dX i ∧ state.R i = R i) ∧
      state.rhoNewPartial p = 0 ∧ state.supnormPartial p = 0)
    (fun p state => (∀ i ∈ nodes N (body.particleRanges p),
        state.dX i = dX i + alpha • S i ∧ state.R i = R i + alpha • negativeQ i) ∧
      state.rhoNewPartial p = ((nodes N (body.particleRanges p)).map fun i =>
        magnitudeSquared (R i + alpha • negativeQ i)).sum ∧
      state.supnormPartial p = (nodes N (body.particleRanges p)).foldl
        (fun most i => max most (magnitudeSquared (R i + alpha • negativeQ i))) 0)
    tasks (all.nodup_iff.mpr (List.nodup_finRange m)) ?_ ?_ ?_
    { dX, R, rhoNewPartial := fun _ => 0, supnormPartial := fun _ => 0 } trivial
    fun _ _ => ⟨fun _ _ => ⟨rfl, rfl⟩, rfl, rfl⟩).2
  · have every : ∀ p, p ∈ tasks := fun p => all.mem_iff.mpr (List.mem_finRange p)
    generalize tasks.foldl (body.helperIII alpha S negativeQ) _ = state at done
    obtain ⟨dX', R', rho, sup⟩ := state
    simp only [Partials.mk.injEq]
    refine ⟨?_, ?_, ?_, ?_⟩
    · funext i
      obtain ⟨p, here, -⟩ := splits i
      exact ((done p (every p)).1 i here).1
    · funext i
      obtain ⟨p, here, -⟩ := splits i
      exact ((done p (every p)).1 i here).2
    · funext p
      exact (done p (every p)).2.1
    · funext p
      exact (done p (every p)).2.2
  · rintro state p _ - ⟨same, rho, sup⟩
    refine ⟨trivial, ?_⟩
    simp only [Deformable.helperIII, foldl_visit alpha S negativeQ (nodup_nodes _), rho, sup,
      zero_add, Function.update_self]
    refine ⟨?_, ?_, ?_⟩
    · intro i here
      rw [if_pos here, if_pos here, (same i here).1, (same i here).2]
      exact ⟨rfl, rfl⟩
    · congr 1
      apply List.map_congr_left
      intro i here
      rw [(same i here).2]
    · apply List.foldl_ext
      intro most i here
      rw [(same i here).2]
  · rintro state p _ q _ distinct - - ⟨same, rho, sup⟩
    simp only [Deformable.helperIII, foldl_visit alpha S negativeQ (nodup_nodes _)]
    refine ⟨?_, ?_, ?_⟩
    · intro i here
      rw [if_neg (apart p q distinct i here), if_neg (apart p q distinct i here)]
      exact same i here
    · rw [Function.update_of_ne distinct, rho]
    · rw [Function.update_of_ne distinct, sup]
  · rintro state p _ q _ distinct - - ⟨found, rho, sup⟩
    simp only [Deformable.helperIII, foldl_visit alpha S negativeQ (nodup_nodes _)]
    refine ⟨?_, ?_, ?_⟩
    · intro i here
      rw [if_neg (apart p q distinct i here), if_neg (apart p q distinct i here)]
      exact found i here
    · rw [Function.update_of_ne distinct, rho]
    · rw [Function.update_of_ne distinct, sup]

/-- The serial step along the direction. -/
theorem serial_update (body : Deformable K N m) (alpha : K) (S negativeQ dX R : Full K N) :
    (serial body).update alpha S negativeQ dX R =
      { dX := fun i => dX i + alpha • S i
        R := fun i => R i + alpha • negativeQ i
        rhoNew := ((List.finRange N).map fun i =>
          magnitudeSquared (R i + alpha • negativeQ i)).sum
        supnorm := (List.finRange N).foldl
          (fun most i => max most (magnitudeSquared (R i + alpha • negativeQ i))) 0 } := by
  simp [serial, foldl_visit alpha S negativeQ (List.nodup_finRange N)]

/-- The tasks go along the direction as the serial loop does. -/
theorem threaded_update (splits : body.Splits) {order : Fin 4 → List (Fin m)}
    (all : ∀ phase, (order phase).Perm (List.finRange m)) (alpha : K)
    (S negativeQ dX R : Full K N) :
    (threaded body order).update alpha S negativeQ dX R =
      (serial body).update alpha S negativeQ dX R := by
  rw [serial_update]
  simp only [threaded, helperIII_all splits (all 3), Values.mk.injEq, true_and]
  refine ⟨splits.sum fun i => magnitudeSquared (R i + alpha • negativeQ i), ?_⟩
  have low : ∀ x ∈ (List.finRange m).map fun p => (nodes N (body.particleRanges p)).foldl
      (fun most i => max most (magnitudeSquared (R i + alpha • negativeQ i))) (0 : K), 0 ≤ x := by
    intro x member
    obtain ⟨p, -, rfl⟩ := List.mem_map.mp member
    exact ((foldl_max_le_iff _ _ _ _).mp le_rfl).1
  have zero := arrayMax_nonneg low
  refine eq_of_forall_ge_iff fun bound => ?_
  rw [foldl_max_le_iff]
  by_cases positive : 0 ≤ bound
  · rw [arrayMax_le_iff low positive, List.forall_mem_map]
    simp only [foldl_max_le_iff, List.mem_finRange, forall_const, positive, true_and]
    exact splits.forall_iff
  · refine iff_of_false (fun less => positive (zero.trans less)) fun both => positive both.1

/-- The threaded branch does what the serial one does, in whatever order the tasks run. -/
theorem threaded_eq (splits : body.Splits) {order : Fin 4 → List (Fin m)}
    (all : ∀ phase, (order phase).Perm (List.finRange m)) :
    threaded body order = serial body := by
  have zeroOut : (threaded body order).zeroOut = (serial body).zeroOut := by
    funext X
    rw [Deformable.threaded_zeroOut splits all, Deformable.serial_zeroOut]
  have measure : (threaded body order).measure = (serial body).measure :=
    funext fun R => threaded_measure splits order R
  have search : (threaded body order).search = (serial body).search := by
    funext beta R S negativeQ
    exact threaded_search splits all beta R S negativeQ
  have update : (threaded body order).update = (serial body).update := by
    funext alpha S negativeQ dX R
    exact threaded_update splits all alpha S negativeQ dX R
  cases one : threaded body order
  cases two : serial body
  simp only [one, two] at zeroOut measure search update
  rw [zeroOut, measure, search, update]

end Update

section Solve

variable {body : Deformable K N m}

/-- The sum of the dot products of all nodes. -/
def dotAll (x y : Full K N) : K := ∑ i, dotProduct (x i) (y i)

/-- The sum over the list of all nodes. -/
theorem sum_finRange (amount : Fin N → K) : ((List.finRange N).map amount).sum = ∑ i, amount i :=
  (Fin.sum_univ_def amount).symm

/-- The product is symmetric. -/
theorem dotAll_comm (x y : Full K N) : dotAll x y = dotAll y x := by
  apply Finset.sum_congr rfl
  intro i _
  simp only [dotProduct]
  ring

/-- The product is linear. -/
theorem dotAll_add_smul (x y z : Full K N) (a : K) :
    dotAll (fun i => x i + a • y i) z = dotAll x z + a * dotAll y z := by
  simp only [dotAll, Finset.mul_sum, ← Finset.sum_add_distrib]
  apply Finset.sum_congr rfl
  intro i _
  simp only [dotProduct, Pi.add_apply, Pi.smul_apply, smul_eq_mul]
  ring

namespace Deformable

variable (body) in
/-- The residual of a solution, from a start value. -/
def residual (dX : Full K N) (X : Full K N) : Full K N :=
  body.free (body.forceDifferential dX + body.forces + body.forceDifferential (X - dX))

/-- Projection to the free nodes is linear. -/
theorem free_add_smul (x y : Full K N) (a : K) :
    body.free (fun i => x i + a • y i) = fun i => body.free x i + a • body.free y i := by
  funext i
  simp only [free]
  split
  · simp
  · rfl

/-- A step changes the residual by the force differential of the step. -/
theorem residual_add_smul (dX X S : Full K N) (a : K) :
    body.residual dX (fun i => X i + a • S i) =
      fun i => body.residual dX X i + a • body.free (body.forceDifferential S) i := by
  have moved : (fun i => X i + a • S i) - dX = (X - dX) + a • S := by
    funext i
    simp only [Pi.sub_apply, Pi.add_apply, Pi.smul_apply]
    abel
  rw [residual, residual, moved, map_add, map_smul, ← free_add_smul]
  congr 1
  funext i
  simp only [Pi.add_apply, Pi.smul_apply]
  abel

/-- An attached node is projected to zero. -/
theorem free_of_mem (X : Full K N) {i : Fin N} (attached : i ∈ body.attachedNodes.flatten) :
    body.free X i = 0 := if_pos attached

/-- A vector that is zero at the attached nodes sees nothing of what is done to them. -/
theorem dotAll_free {x : Full K N} (zero : ∀ i ∈ body.attachedNodes.flatten, x i = 0)
    (y : Full K N) : dotAll x (body.free y) = dotAll x y := by
  apply Finset.sum_congr rfl
  intro i _
  simp only [free]
  split
  · rename_i attached
    simp [zero i attached, dotProduct]
  · rfl

end Deformable

variable [LinearOrder K]

/-- The product of the residual with itself, and its greatest entry. -/
theorem serial_measure (R : Full K N) :
    (serial body).measure R = (dotAll R R,
      (List.finRange N).foldl (fun most i => max most (magnitudeSquared (R i))) 0) := by
  have pair := Deformable.foldl_pair (fun i => magnitudeSquared (R i)) 0 0 (List.finRange N)
  rw [zero_add, sum_finRange] at pair
  exact pair

/-- What holds at the start of an iteration. -/
structure Head (body : Deformable K N m) (dX : Full K N) (s : Newton K N) : Prop where
  residual : s.R = body.residual dX s.dX
  rho : s.rho = dotAll s.R s.R
  /-- The residual is orthogonal to the last direction. -/
  conjugate : s.beta * dotAll s.R s.S = 0
  zero : ∀ i ∈ body.attachedNodes.flatten, s.beta • s.S i = 0

/-- What holds at the test of an iteration. -/
structure Tested (body : Deformable K N m) (dX : Full K N) (s : Newton K N) : Prop where
  residual : s.R = body.residual dX s.dX
  rhoNew : s.rhoNew = dotAll s.R s.R
  supnorm : s.supnorm = body.sqrt ((serial body).measure s.R).2
  conjugate : dotAll s.R s.S = 0
  zero : ∀ i ∈ body.attachedNodes.flatten, s.S i = 0

/-- The direction of an iteration and its product with the force differential. -/
theorem serial_search (beta : K) (R S negativeQ : Full K N) :
    (serial body).search beta R S negativeQ =
      (fun i => beta • S i + R i, body.free (body.forceDifferential fun i => beta • S i + R i),
        -dotAll (fun i => beta • S i + R i)
          (body.free (body.forceDifferential fun i => beta • S i + R i))) := by
  have zero : (serial body).zeroOut (body.forceDifferential fun i => beta • S i + R i) = _ :=
    Deformable.serial_zeroOut _
  simp only [serial] at zero
  simp only [serial, zero, Deformable.foldl_sub_map, zero_sub, sum_finRange]
  rfl

/-- The state before the first iteration meets the invariant. -/
theorem start_head (body : Deformable K N m) (dX S negativeQ : Full K N) :
    Head body (body.free dX) (body.start (serial body) dX S negativeQ) ∧
      (body.start (serial body) dX S negativeQ).supnorm =
        body.sqrt ((serial body).measure (body.start (serial body) dX S negativeQ).R).2 := by
  refine ⟨⟨?_, ?_, ?_, ?_⟩, rfl⟩
  · simp only [Deformable.start, Deformable.serial_zeroOut, Deformable.residual, sub_self, map_zero,
      add_zero]
  · exact congrArg Prod.fst (serial_measure _)
  · simp [Deformable.start]
  · simp [Deformable.start]

omit [LinearOrder K] in
/-- The direction of an iteration, and its product with the residual. -/
theorem Head.direction {dX : Full K N} {s : Newton K N} (head : Head body dX s) :
    (∀ i ∈ body.attachedNodes.flatten, s.beta • s.S i + s.R i = 0) ∧
      dotAll s.R (fun i => s.beta • s.S i + s.R i) = s.rho := by
  refine ⟨?_, ?_⟩
  · intro i attached
    rw [head.zero i attached, head.residual, Deformable.residual,
      Deformable.free_of_mem _ attached, add_zero]
  · have turned : (fun i => s.beta • s.S i + s.R i) = fun i => s.R i + s.beta • s.S i :=
      funext fun i => add_comm _ _
    rw [turned, dotAll_comm, dotAll_add_smul, dotAll_comm s.S, head.conjugate, add_zero, head.rho]

/-- An iteration keeps the residual. -/
theorem Head.iterate {dX : Full K N} {s u : Newton K N} (head : Head body dX s)
    (iterates : body.iterate (serial body) s = some u) : Tested body dX u ∧ u.rho = s.rho := by
  obtain ⟨zero, product⟩ := head.direction
  simp only [Deformable.iterate, serial_search, serial_update] at iterates
  split at iterates
  case isTrue => cases iterates
  rename_i some
  cases iterates
  refine ⟨⟨?_, ?_, by rw [serial_measure], ?_, zero⟩, rfl⟩
  · dsimp only
    rw [Deformable.residual_add_smul, ← head.residual]
  · simp only [sum_finRange]
    rfl
  · dsimp only
    rw [dotAll_add_smul, product, dotAll_comm (body.free _), div_neg, neg_mul,
      div_mul_cancel₀ _ (neg_ne_zero.mp some), add_neg_cancel]

/-- The end of an iteration. -/
theorem Tested.advance {dX : Full K N} {s u : Newton K N} (tested : Tested body dX s)
    (advances : s.advance = some u) : Head body dX u := by
  simp only [Newton.advance] at advances
  split at advances
  case isTrue => cases advances
  cases advances
  refine ⟨tested.residual, tested.rhoNew, ?_, ?_⟩
  · dsimp only
    rw [tested.conjugate, mul_zero]
  · intro i attached
    dsimp only
    rw [tested.zero i attached, smul_zero]

variable [IsStrictOrderedRing K]

/-- A square is not negative. -/
theorem magnitudeSquared_nonneg (x : TV K) : 0 ≤ magnitudeSquared x := by
  unfold magnitudeSquared dotProduct
  have first := mul_self_nonneg (x 0)
  have second := mul_self_nonneg (x 1)
  have third := mul_self_nonneg (x 2)
  linarith

/-- The square of zero only is zero. -/
theorem magnitudeSquared_eq_zero {x : TV K} : magnitudeSquared x = 0 ↔ x = 0 := by
  unfold magnitudeSquared dotProduct
  have first := mul_self_nonneg (x 0)
  have second := mul_self_nonneg (x 1)
  have third := mul_self_nonneg (x 2)
  constructor
  · intro zero
    funext j
    have one : x j * x j = 0 := by
      fin_cases j
      · show x 0 * x 0 = 0
        linarith
      · show x 1 * x 1 = 0
        linarith
      · show x 2 * x 2 = 0
        linarith
    exact mul_self_eq_zero.mp one
  · rintro rfl
    simp

/-- The product of zero only with itself is zero. -/
theorem dotAll_self_eq_zero {x : Full K N} : dotAll x x = 0 ↔ x = 0 := by
  have sum := Finset.sum_eq_zero_iff_of_nonneg (s := Finset.univ)
    (f := fun i => magnitudeSquared (x i))
    fun i _ => magnitudeSquared_nonneg (x i)
  refine sum.trans ?_
  simp only [Finset.mem_univ, forall_const, magnitudeSquared_eq_zero]
  exact funext_iff.symm

/-- The function that the code calls takes square roots. -/
def Root (sqrt : K → K) : Prop := ∀ x, 0 ≤ x → 0 ≤ sqrt x ∧ sqrt x * sqrt x = x

/-- The sup norm is within a tolerance. -/
def Within (sqrt : K → K) (tolerance : K) (R : Full K N) : Prop :=
  0 ≤ tolerance ∧ ∀ i, sqrt (magnitudeSquared (R i)) ≤ tolerance

/-- A root is compared through its square. -/
theorem Root.le_iff {sqrt : K → K} (root : Root sqrt) {x bound : K} (low : 0 ≤ x) :
    sqrt x ≤ bound ↔ 0 ≤ bound ∧ x ≤ bound * bound := by
  obtain ⟨positive, square⟩ := root x low
  constructor
  · intro less
    exact ⟨positive.trans less, by rw [← square]; exact mul_self_le_mul_self positive less⟩
  · rintro ⟨zero, less⟩
    rw [← square] at less
    exact (mul_self_le_mul_self_iff positive zero).mpr less

/-- The test of the code is on the sup norm. -/
theorem Root.within_iff (root : Root body.sqrt) (tolerance : K) (R : Full K N) :
    body.sqrt ((serial body).measure R).2 ≤ tolerance ↔ Within body.sqrt tolerance R := by
  have most := ((foldl_max_le_iff (fun i => magnitudeSquared (R i)) (0 : K) _
    (List.finRange N)).mp le_rfl).1
  rw [serial_measure, root.le_iff most, foldl_max_le_iff, Within]
  constructor
  · rintro ⟨low, -, all⟩
    exact ⟨low, fun i => (root.le_iff (magnitudeSquared_nonneg _)).mpr
      ⟨low, all i (List.mem_finRange i)⟩⟩
  · rintro ⟨low, all⟩
    exact ⟨low, mul_self_nonneg tolerance,
      fun i _ => ((root.le_iff (magnitudeSquared_nonneg _)).mp (all i)).2⟩

/-- A residual that is not within the tolerance is not zero. -/
theorem Root.ne_zero (root : Root body.sqrt) {tolerance : K} (low : 0 ≤ tolerance) {R : Full K N}
    (outside : ¬Within body.sqrt tolerance R) : dotAll R R ≠ 0 := by
  intro zero
  rw [dotAll_self_eq_zero] at zero
  refine outside ⟨low, ?_⟩
  intro i
  rw [root.le_iff (magnitudeSquared_nonneg _), zero]
  have none : magnitudeSquared ((0 : Full K N) i) = 0 := magnitudeSquared_eq_zero.mpr rfl
  rw [none]
  exact ⟨low, mul_self_nonneg tolerance⟩

/-- The force differential is negative definite on the nodes that are not attached. -/
def Definite (body : Deformable K N m) : Prop :=
  ∀ X : Full K N, (∀ i ∈ body.attachedNodes.flatten, X i = 0) → X ≠ 0 →
    dotAll X (body.forceDifferential X) < 0

omit [IsStrictOrderedRing K] in
/-- No division by zero stops an iteration. -/
theorem Head.iterate_isSome (definite : Definite body) {dX : Full K N} {s : Newton K N}
    (head : Head body dX s) (some : s.rho ≠ 0) : (body.iterate (serial body) s).isSome := by
  obtain ⟨zero, product⟩ := head.direction
  have moves : (fun i => s.beta • s.S i + s.R i) ≠ 0 := by
    intro none
    rw [none] at product
    refine some (product.symm.trans ?_)
    simp [dotAll, dotProduct]
  have negative := definite _ zero moves
  rw [← Deformable.dotAll_free zero] at negative
  simp only [Deformable.iterate, serial_search]
  rw [if_neg (neg_ne_zero.mpr negative.ne)]
  rfl

variable (body) in
/-- The variables at the start of an iteration, when no test has ended the loop. -/
def heads (branch : Nat → Branch K N) (dX S negativeQ : Full K N) : Nat → Option (Newton K N)
  | 0 => some (body.start (branch 0) dX S negativeQ)
  | k + 1 => do
    let s ← heads branch dX S negativeQ k
    let s ← body.iterate (branch (k + 1)) s
    s.advance

variable (body) in
/-- The variables at the test of an iteration, when no earlier test has ended the loop. -/
def tests (branch : Nat → Branch K N) (dX S negativeQ : Full K N) (k : Nat) :
    Option (Newton K N) := do
  let s ← heads body branch dX S negativeQ k
  body.iterate (branch (k + 1)) s

omit [IsStrictOrderedRing K] in
/-- Every head of the loop meets the invariant. -/
theorem heads_head {dX S negativeQ : Full K N} {k : Nat} {s : Newton K N}
    (reached : heads body (fun _ => serial body) dX S negativeQ k = some s) :
    Head body (body.free dX) s := by
  induction k generalizing s with
  | zero =>
    cases reached
    exact (start_head body dX S negativeQ).1
  | succ k ih =>
    rw [heads] at reached
    obtain ⟨s', before, reached⟩ := Option.bind_eq_some_iff.mp reached
    obtain ⟨u, iterates, advances⟩ := Option.bind_eq_some_iff.mp reached
    exact ((ih before).iterate iterates).1.advance advances

omit [IsStrictOrderedRing K] in
/-- Every state at the test meets the invariant of the test. -/
theorem tests_tested {dX S negativeQ : Full K N} {k : Nat} {s : Newton K N}
    (reached : tests body (fun _ => serial body) dX S negativeQ k = some s) :
    Tested body (body.free dX) s := by
  obtain ⟨s', before, iterates⟩ := Option.bind_eq_some_iff.mp reached
  exact ((heads_head before).iterate iterates).1

omit [IsStrictOrderedRing K] in
/-- What the loop reports. -/
theorem loop_spec {branch : Nat → Branch K N} {tolerance : K} {dX S negativeQ : Full K N}
    {rest k : Nat} {s s' : Newton K N} {converged : Bool}
    (reached : heads body branch dX S negativeQ k = some s)
    (runs : body.loop branch tolerance rest (k + 1) s = some (converged, s')) :
    (converged = true ↔ ∃ j, k ≤ j ∧ j < k + rest ∧
      ∃ u, tests body branch dX S negativeQ j = some u ∧ u.supnorm ≤ tolerance) ∧
    (converged = true →
      ∃ j, tests body branch dX S negativeQ j = some s' ∧ s'.supnorm ≤ tolerance) := by
  induction rest generalizing k s with
  | zero =>
    cases runs
    refine ⟨⟨nofun, ?_⟩, nofun⟩
    rintro ⟨j, low, high, -⟩
    omega
  | succ rest ih =>
    rw [Deformable.loop] at runs
    cases iterates : body.iterate (branch (k + 1)) s with
    | none =>
      rw [iterates] at runs
      cases runs
    | some u =>
      rw [iterates] at runs
      dsimp only at runs
      have tested : tests body branch dX S negativeQ k = some u := by
        rw [tests, reached]
        exact iterates
      split at runs
      · rename_i small
        cases runs
        exact ⟨⟨fun _ => ⟨k, le_rfl, by omega, _, tested, small⟩, fun _ => rfl⟩,
          fun _ => ⟨k, tested, small⟩⟩
      · rename_i large
        cases advances : u.advance with
        | none =>
          rw [advances] at runs
          cases runs
        | some next =>
          rw [advances] at runs
          have later : heads body branch dX S negativeQ (k + 1) = some next := by
            rw [heads, reached, Option.bind_eq_bind, Option.bind_some, iterates]
            exact advances
          obtain ⟨found, last⟩ := ih later runs
          refine ⟨found.trans ⟨?_, ?_⟩, last⟩
          · rintro ⟨j, low, high, found⟩
            exact ⟨j, by omega, by omega, found⟩
          · rintro ⟨j, low, high, u', here, small⟩
            refine ⟨j, ?_, by omega, u', here, small⟩
            rcases low.lt_or_eq with more | rfl
            · exact more
            · rw [tested] at here
              cases here
              exact absurd small large

/-- No division by zero stops the loop. -/
theorem loop_isSome (definite : Definite body) (root : Root body.sqrt) {tolerance : K}
    (low : 0 ≤ tolerance) {dX : Full K N} {rest k : Nat} {s : Newton K N}
    (head : Head body dX s) (nonzero : s.rho ≠ 0) :
    (body.loop (fun _ => serial body) tolerance rest k s).isSome := by
  induction rest generalizing k s with
  | zero => rfl
  | succ rest ih =>
    obtain ⟨u, iterates⟩ := Option.isSome_iff_exists.mp (head.iterate_isSome definite nonzero)
    obtain ⟨tested, same⟩ := head.iterate iterates
    rw [Deformable.loop, iterates]
    dsimp only
    split
    · rfl
    · rename_i large
      rw [tested.supnorm, root.within_iff] at large
      have more := root.ne_zero low large
      have advances : u.advance = some { u with beta := u.rhoNew / u.rho, rho := u.rhoNew } := by
        rw [Newton.advance, if_neg (by rw [same]; exact nonzero)]
      rw [advances]
      exact ih (tested.advance advances) (by rw [← tested.rhoNew] at more; exact more)

/-- What a Newton step promises. -/
structure Solves (body : Deformable K N m) (branch : Nat → Branch K N) (tolerance : K)
    (maxIterations : Int) (dX S negativeQ : Full K N) : Prop where
  /-- The partitions compute what the serial branch computes. -/
  same : ∀ k, branch k = serial body
  /-- At the start of an iteration `R` is the residual and `rho` its squared norm. -/
  head : ∀ k s, heads body branch dX S negativeQ k = some s →
    s.R = body.residual (body.free dX) s.dX ∧ s.rho = dotAll s.R s.R
  /-- At the test of an iteration `R` is the residual and `rho_new` its squared norm. -/
  test : ∀ k s, tests body branch dX S negativeQ k = some s →
    s.R = body.residual (body.free dX) s.dX ∧ s.rhoNew = dotAll s.R s.R
  /-- No step divides by zero. -/
  runs : 0 ≤ tolerance →
    (body.oneNewtonStep branch tolerance maxIterations dX S negativeQ).isSome
  /-- The result says whether the sup norm of the residual was within the tolerance in time. -/
  reports : ∀ converged s,
    body.oneNewtonStep branch tolerance maxIterations dX S negativeQ = some (converged, s) →
      (converged = true ↔
        Within body.sqrt tolerance (body.residual (body.free dX) (body.free dX)) ∨
        ∃ k < maxIterations.toNat, ∃ s, tests body branch dX S negativeQ k = some s ∧
          Within body.sqrt tolerance (body.residual (body.free dX) s.dX)) ∧
      (converged = true → Within body.sqrt tolerance (body.residual (body.free dX) s.dX))

/-- A Newton step keeps its promise, for every partition of the nodes and every order of the tasks
in each phase. -/
theorem solves (splits : body.Splits) (order : Nat → Fin 4 → List (Fin m))
    (all : ∀ k phase, (order k phase).Perm (List.finRange m)) (root : Root body.sqrt)
    (definite : Definite body) (tolerance : K) (maxIterations : Int) (dX S negativeQ : Full K N) :
    Solves body (fun k => threaded body (order k)) tolerance maxIterations dX S negativeQ := by
  have same : (fun k => threaded body (order k)) = fun _ => serial body :=
    funext fun k => threaded_eq splits (all k)
  rw [same]
  obtain ⟨head, measured⟩ := start_head body dX S negativeQ
  have solution : (body.start (serial body) dX S negativeQ).dX = body.free dX :=
    Deformable.serial_zeroOut dX
  have within : (body.start (serial body) dX S negativeQ).supnorm ≤ tolerance ↔
      Within body.sqrt tolerance (body.residual (body.free dX) (body.free dX)) := by
    rw [measured, root.within_iff, head.residual, solution]
  have small : ∀ k s, tests body (fun _ => serial body) dX S negativeQ k = some s →
      (s.supnorm ≤ tolerance ↔ Within body.sqrt tolerance (body.residual (body.free dX) s.dX)) := by
    intro k s reached
    rw [(tests_tested reached).supnorm, root.within_iff, (tests_tested reached).residual]
  refine ⟨fun _ => rfl, ?_, ?_, ?_, ?_⟩
  · intro k s reached
    exact ⟨(heads_head reached).residual, (heads_head reached).rho⟩
  · intro k s reached
    exact ⟨(tests_tested reached).residual, (tests_tested reached).rhoNew⟩
  · intro low
    rw [Deformable.oneNewtonStep]
    split
    · rfl
    · rename_i large
      rw [measured, root.within_iff] at large
      exact loop_isSome definite root low head (by rw [head.rho]; exact root.ne_zero low large)
  · intro converged s runs
    rw [Deformable.oneNewtonStep] at runs
    split at runs
    · rename_i early
      cases runs
      exact ⟨⟨fun _ => .inl (within.mp early), fun _ => rfl⟩, fun _ => by
        rw [solution]
        exact within.mp early⟩
    · rename_i large
      obtain ⟨found, last⟩ := loop_spec (k := 0) rfl runs
      refine ⟨found.trans ?_, ?_⟩
      · constructor
        · rintro ⟨j, -, less, u, reached, less'⟩
          exact .inr ⟨j, by omega, u, reached, (small j u reached).mp less'⟩
        · rintro (early | ⟨j, less, u, reached, near⟩)
          · exact absurd (within.mpr early) large
          · exact ⟨j, Nat.zero_le j, by omega, u, reached, (small j u reached).mpr near⟩
      · intro yes
        obtain ⟨j, reached, near⟩ := last yes
        exact (small j s reached).mp near

end Solve

/-- Three nodes on springs of different strength in two partitions, the first node attached. -/
theorem solves_sample :
    let body : Deformable ℝ 3 2 :=
      { particleRanges := ![(1, 2), (3, 3)]
        attachedNodes := [[0]]
        forceDifferential := LinearMap.pi fun i => -((i : ℝ) + 1) • LinearMap.proj i
        forces := fun i => ![i, 1, 2]
        sqrt := Real.sqrt }
    Solves body (fun _ => threaded body ![[0, 1], [1, 0], [0, 1], [1, 0]]) (1 / 2) 200
      (fun _ => ![1, 0, 0]) 0 0 := by
  intro body
  have splits : body.Splits := by
    intro i
    fin_cases i
    · exact ⟨0, by decide, by decide⟩
    · exact ⟨0, by decide, by decide⟩
    · exact ⟨1, by decide, by decide⟩
  have definite : Definite body := by
    intro X _ moves
    have positive : 0 < dotAll X X := by
      refine lt_of_le_of_ne (Finset.sum_nonneg fun i _ => magnitudeSquared_nonneg (X i)) ?_
      exact fun zero => moves (dotAll_self_eq_zero.mp zero.symm)
    have turned : dotAll X (body.forceDifferential X) ≤ -dotAll X X := by
      simp only [dotAll, ← Finset.sum_neg_distrib]
      refine Finset.sum_le_sum fun i _ => ?_
      have square : dotProduct (X i) (body.forceDifferential X i) =
          -((i : ℝ) + 1) * magnitudeSquared (X i) := by
        simp only [body, magnitudeSquared, dotProduct, LinearMap.pi_apply, LinearMap.smul_apply,
          LinearMap.proj_apply, Pi.smul_apply, smul_eq_mul]
        ring
      have strong : 0 ≤ (i : ℝ) * magnitudeSquared (X i) :=
        mul_nonneg (Nat.cast_nonneg _) (magnitudeSquared_nonneg (X i))
      show _ ≤ -magnitudeSquared (X i)
      rw [square]
      linarith
    linarith
  have root : Root body.sqrt := fun x low => ⟨Real.sqrt_nonneg x, Real.mul_self_sqrt low⟩
  exact solves splits (fun _ => ![[0, 1], [1, 0], [0, 1], [1, 0]]) (fun _ => by decide) root
    definite (1 / 2) 200 (fun _ => ![1, 0, 0]) 0 0

end P3arsec.Facesim
