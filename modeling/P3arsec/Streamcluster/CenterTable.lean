import P3arsec.Streamcluster.GainCorrect

/-!
# The numbers of the centers

Before the rows of `work_mem` can be used the centers are numbered in three passes: each thread
counts the centers of its block, the counts become offsets, and each thread adds its offset. The
numbers are the ranks of the centers (`tabulate_rank`), whatever the number of threads is, so that
they fit into the rows.
-/

namespace P3arsec.Streamcluster

namespace Call

variable {𝕂 : Type} [Field 𝕂]

/-- The points that are centers. -/
def centers (call : Call 𝕂) : Set Nat :=
  {i | i < call.st.points.num ∧ call.st.isCenter i = true}

/-- The columns in which the rows of the work area are used: the first one for the count and the
offset, those of the centers, and two behind them. -/
def columns (call : Call 𝕂) (table : Nat → Nat) : Set Nat :=
  insert 0 (insert call.K (insert (call.K + 1) (table '' call.centers)))

variable {call : Call 𝕂} {version : Version} {sched : Schedule call.nproc} {mem : Memory 𝕂}

/-- The number of a center is its rank. -/
theorem tabulate_rank (threads : 0 < call.nproc) :
    Set.EqOn (call.tabulate version sched mem).centerTable call.rank call.centers :=
  fun _ center => AllNumbered.rank tabulate_ready.numbered threads center.2 center.1

/-- The ranks of the centers leave no number out. -/
theorem exists_rank {k n : Nat} (less : k < call.rank n) :
    ∃ i < n, call.st.isCenter i = true ∧ call.rank i = k := by
  induction n with
  | zero => exact absurd less (Nat.not_lt_zero k)
  | succ n ih =>
    rcases Nat.lt_or_ge k (call.rank n) with before | last
    · obtain ⟨i, early, center, same⟩ := ih before
      exact ⟨i, early.trans (Nat.lt_succ_self n), center, same⟩
    · have next := rank_succ call n
      cases center : call.st.isCenter n with
      | true =>
        rw [center, Bool.toNat_true] at next
        exact ⟨n, Nat.lt_succ_self n, center, by omega⟩
      | false =>
        rw [center, Bool.toNat_false] at next
        omega

/-- The rank grows from center to center. -/
theorem rank_strictMonoOn : StrictMonoOn call.rank call.centers :=
  fun _ center _ _ below => rank_lt_rank center.2 below

/-- The centers are numbered without gaps. -/
theorem rank_bijOn (count : call.st.numcenters = call.rank call.st.points.num) :
    Set.BijOn call.rank call.centers (Set.Iio call.st.numcenters) := by
  refine ⟨?_, rank_strictMonoOn.injOn, ?_⟩
  · intro i center
    rw [Set.mem_Iio, count]
    exact rank_lt_rank center.2 center.1
  · intro k less
    rw [Set.mem_Iio, count] at less
    obtain ⟨i, known, center, same⟩ := exists_rank less
    exact ⟨i, ⟨known, center⟩, same⟩

end Call

/-- The table of the centers, for every marking of the points, number of threads, order of the
threads and content of the memory: the centers are numbered from zero in the order of the points,
each cell of the work area is in its row, and the number of threads does not matter. -/
theorem tabulate_correct {𝕂 : Type} [Field 𝕂] (call : Call 𝕂) (threads : 0 < call.nproc)
    (count : call.st.numcenters = (List.range call.st.points.num).countP call.st.isCenter)
    (version : Call.Version) (sched : Schedule call.nproc) (mem : Memory 𝕂) :
    let table := (call.tabulate version sched mem).centerTable
    Set.BijOn table call.centers (Set.Iio call.st.numcenters) ∧
    StrictMonoOn table call.centers ∧
    (∀ column ∈ call.columns table, column < call.stride ∧
      ∀ row ≤ call.nproc, row * call.stride + column < call.stride * (call.nproc + 1)) ∧
    ∀ other : Call 𝕂, other.st = call.st → 0 < other.nproc →
      ∀ (version' : Call.Version) (sched' : Schedule other.nproc) (mem' : Memory 𝕂),
        Set.EqOn (other.tabulate version' sched' mem').centerTable table call.centers := by
  intro table
  have ranks : Set.EqOn table call.rank call.centers := Call.tabulate_rank threads
  have bijective := (Call.rank_bijOn count).congr ranks.symm
  have wide := call.stride_ge
  refine ⟨bijective, Call.rank_strictMonoOn.congr ranks.symm, ?_, ?_⟩
  · intro column used
    have inside : column < call.stride := by
      obtain ⟨-, behind⟩ := call.K_spec
      rcases used with rfl | rfl | rfl | ⟨i, center, rfl⟩
      · omega
      · omega
      · omega
      · have low := Set.mem_Iio.mp (bijective.mapsTo center)
        omega
    refine ⟨inside, fun row le => ?_⟩
    have rows : row * call.stride ≤ call.nproc * call.stride := Nat.mul_le_mul_right _ le
    rw [Nat.mul_succ, Nat.mul_comm call.stride]
    omega
  · intro other same threads' version' sched' mem' i center
    have center' : i ∈ other.centers := by
      rw [Call.centers, same]
      exact center
    rw [Call.tabulate_rank threads' center', ranks center, Call.rank, same, Call.rank]

/-- Five points, three of them centers, with more threads than points. -/
def manyThreads : Call ℚ where
  x := 0
  z := 1
  st := ⟨⟨5, 1, fun _ => ⟨1, fun _ => 0, 0, 0⟩⟩, fun i => i == 0 || i == 2 || i == 3, 3⟩
  nproc := 7
  conv := floorConversion

/-- The threads run in their order. -/
def inOrder : Schedule manyThreads.nproc := ⟨fun _ => List.range 7, fun _ => List.Perm.refl _⟩

/-- The table of a small clustering. -/
theorem tabulate_correct_sample :
    let table := (manyThreads.tabulate .pthreads inOrder
      ⟨id, fun _ => true, fun _ => 7, fun _ => 5, id⟩).centerTable
    Set.BijOn table manyThreads.centers (Set.Iio 3) ∧ StrictMonoOn table manyThreads.centers := by
  have correct := tabulate_correct manyThreads (by decide) (by decide) .pthreads inOrder
    ⟨id, fun _ => true, fun _ => 7, fun _ => 5, id⟩
  exact ⟨correct.1, correct.2.1⟩

end P3arsec.Streamcluster
