import P3arsec.Streamcluster.Gain

/-!
# The gain is the change of the total cost

The blocks of the threads are a partition of the points, the numbers of the centers are their
ranks (`rank`), and the rows of `work_mem` are separate. Each phase is described by what it makes
true for each thread; the iterations of a phase do not interfere. Added up, the partial costs are
the gain of the move (`finish_spec`), and the last phase makes it.
-/

namespace P3arsec.Streamcluster

open P3arsec.Lib

variable {𝕂 : Type} [Field 𝕂]

/-- Two cells of a table with rows of one length are the same only in the same row and column. -/
theorem cell_inj {row row' col col' stride : Nat} (inside : col < stride) (inside' : col' < stride)
    (same : row * stride + col = row' * stride + col') : row = row' ∧ col = col' := by
  have positive : 0 < stride := Nat.zero_lt_of_lt inside
  have remainder : (row * stride + col) % stride = (row' * stride + col') % stride :=
    congrArg (· % stride) same
  rw [Nat.mul_add_mod', Nat.mul_add_mod', Nat.mod_eq_of_lt inside, Nat.mod_eq_of_lt inside']
    at remainder
  refine ⟨Nat.eq_of_mul_eq_mul_right positive ?_, remainder⟩
  omega

/-- A range goes on where a shorter one ends. -/
theorem range_append (first second : Nat) :
    List.range first ++ List.range' first second = List.range (first + second) := by
  have joined : List.range' 0 first ++ List.range' (0 + first) second = _ :=
    List.range'_append_1
  rw [Nat.zero_add] at joined
  rw [List.range_eq_range', List.range_eq_range', joined]

namespace Call

variable (call : Call 𝕂)

/-- A row has room for the centers and two sums. -/
theorem stride_ge : call.st.numcenters + 2 ≤ call.stride := by
  unfold stride
  dsimp only
  split <;> omega

/-- The places of the two sums. -/
theorem K_spec : call.st.numcenters ≤ call.K ∧ call.K + 2 = call.stride := by
  have wide := call.stride_ge
  unfold K
  omega

section Blocks

variable {call} {pid other i : Nat}

/-- The points of a thread. -/
theorem mem_block : i ∈ call.block pid ↔ call.k1 pid ≤ i ∧ i < call.k2 pid := by
  rw [block, List.mem_range'_1]
  omega

/-- The points of a thread are different. -/
theorem block_nodup : (call.block pid).Nodup := List.nodup_range'

/-- The blocks before the last one lie one behind the other. -/
theorem flatMap_block (n : Nat) (early : n < call.nproc) :
    (List.range n).flatMap call.block = List.range (call.k1 n) := by
  induction n with
  | zero => simp [k1]
  | succ n ih =>
    have before : n ≠ call.nproc - 1 := by omega
    have next : call.k1 (n + 1) = call.k1 n + call.st.points.num / call.nproc := Nat.mul_succ _ _
    have size : call.k2 n - call.k1 n = call.st.points.num / call.nproc := by
      rw [k2, if_neg before, Nat.add_sub_cancel_left]
    rw [List.range_succ, List.flatMap_append, ih (by omega), List.flatMap_singleton, block, size,
      next]
    exact range_append _ _

/-- The blocks are the points. -/
theorem flatMap_blocks (threads : 0 < call.nproc) :
    (List.range call.nproc).flatMap call.block = List.range call.st.points.num := by
  obtain ⟨n, same⟩ := Nat.exists_eq_succ_of_ne_zero (Nat.ne_of_gt threads)
  have last : n = call.nproc - 1 := by omega
  have start : call.k1 n ≤ call.st.points.num :=
    calc call.st.points.num / call.nproc * n ≤ call.st.points.num / call.nproc * call.nproc :=
          Nat.mul_le_mul_left _ (by omega)
      _ ≤ call.st.points.num := Nat.div_mul_le_self _ _
  have stop : call.k2 n = call.st.points.num := by rw [k2, if_pos last]
  rw [same, List.range_succ, List.flatMap_append, flatMap_block n (by omega),
    List.flatMap_singleton, block, stop, range_append, Nat.add_sub_cancel' start]

/-- The points of a thread are points. -/
theorem block_lt (member : i ∈ call.block pid) (thread : pid < call.nproc) :
    i < call.st.points.num := by
  have inside : i ∈ (List.range call.nproc).flatMap call.block :=
    List.mem_flatMap.mpr ⟨pid, List.mem_range.mpr thread, member⟩
  rw [flatMap_blocks (Nat.zero_lt_of_lt thread)] at inside
  exact List.mem_range.mp inside

/-- Every point is one of a thread. -/
theorem exists_block (threads : 0 < call.nproc) (known : i < call.st.points.num) :
    ∃ pid < call.nproc, i ∈ call.block pid := by
  have inside : i ∈ (List.range call.nproc).flatMap call.block := by
    rw [flatMap_blocks threads]
    exact List.mem_range.mpr known
  obtain ⟨pid, thread, member⟩ := List.mem_flatMap.mp inside
  exact ⟨pid, List.mem_range.mp thread, member⟩

/-- A point is in one block only. -/
theorem block_unique (member : i ∈ call.block pid) (member' : i ∈ call.block other)
    (thread : pid < call.nproc) (thread' : other < call.nproc) : pid = other := by
  have ordered : ∀ {first second : Nat}, first < second → second < call.nproc →
      i ∈ call.block first → i ∈ call.block second → False := by
    intro first second below thread inFirst inSecond
    have before : first ≠ call.nproc - 1 := by omega
    have stop := (mem_block.mp inFirst).2
    have start := (mem_block.mp inSecond).1
    rw [k2, if_neg before] at stop
    have step : call.k1 first + call.st.points.num / call.nproc ≤ call.k1 second :=
      calc call.k1 first + call.st.points.num / call.nproc
          = call.st.points.num / call.nproc * (first + 1) := (Nat.mul_succ _ _).symm
        _ ≤ call.k1 second := Nat.mul_le_mul_left _ below
    omega
  rcases Nat.lt_trichotomy pid other with below | same | above
  · exact (ordered below thread' member member').elim
  · exact same
  · exact (ordered above thread member' member).elim

/-- A sum over the blocks is a sum over the points. -/
theorem sum_blocks {M : Type} [AddCommMonoid M] (threads : 0 < call.nproc) (amount : Nat → M) :
    ∑ pid ∈ Finset.range call.nproc, ((call.block pid).map amount).sum =
      ∑ i ∈ Finset.range call.st.points.num, amount i := by
  have flat : ∀ pids : List Nat, ((pids.flatMap call.block).map amount).sum =
      (pids.map fun pid => ((call.block pid).map amount).sum).sum := by
    intro pids
    induction pids with
    | nil => rfl
    | cons pid pids ih =>
      rw [List.flatMap_cons, List.map_append, List.sum_append, ih, List.map_cons, List.sum_cons]
  show ((List.range call.nproc).map fun pid => ((call.block pid).map amount).sum).sum =
    ((List.range call.st.points.num).map amount).sum
  rw [← flat, flatMap_blocks threads]

/-- The block of a thread is ordered. -/
theorem k1_le_k2 (thread : pid < call.nproc) : call.k1 pid ≤ call.k2 pid := by
  unfold k2
  split
  · rename_i last
    calc call.st.points.num / call.nproc * pid ≤ call.st.points.num / call.nproc * call.nproc :=
          Nat.mul_le_mul_left _ (by omega)
      _ ≤ call.st.points.num := Nat.div_mul_le_self _ _
  · exact Nat.le_add_right _ _

/-- A block that is not the last one ends where the next one starts. -/
theorem k2_eq (early : pid + 1 < call.nproc) : call.k2 pid = call.k1 (pid + 1) := by
  have before : pid ≠ call.nproc - 1 := by omega
  rw [k2, if_neg before]
  exact (Nat.mul_succ _ _).symm

end Blocks

section Rank

/-- The rank of a point among the centers. -/
def rank (i : Nat) : Nat := (List.range i).countP call.st.isCenter

variable {call} {i other : Nat}

/-- The rank goes up at a center. -/
theorem rank_succ (call : Call 𝕂) (i : Nat) :
    call.rank (i + 1) = call.rank i + (call.st.isCenter i).toNat := by
  rw [rank, List.range_succ, List.countP_append, List.countP_singleton]
  cases call.st.isCenter i <;> rfl

/-- The rank does not go down. -/
theorem rank_mono (below : i ≤ other) : call.rank i ≤ call.rank other :=
  (List.range_sublist.mpr below).countP_le

/-- A center comes before every later one. -/
theorem rank_lt_rank (center : call.st.isCenter i = true) (below : i < other) :
    call.rank i < call.rank other := by
  have next := rank_succ call i
  have later : call.rank (i + 1) ≤ call.rank other := rank_mono below
  rw [center] at next
  simp only [Bool.toNat_true] at next
  omega

/-- Different centers have different ranks. -/
theorem rank_inj (center : call.st.isCenter i = true) (center' : call.st.isCenter other = true)
    (same : call.rank i = call.rank other) : i = other := by
  rcases Nat.lt_trichotomy i other with below | equal | above
  · have apart := rank_lt_rank center below
    omega
  · exact equal
  · have apart := rank_lt_rank center' above
    omega

/-- The number of centers is the rank behind the last point. -/
theorem numcenters_eq (valid : call.st.Valid) :
    call.st.numcenters = call.rank call.st.points.num := by
  have filtered :
      (List.range call.st.points.num).filter (fun i => decide (call.st.isCenter i = true))
      = (List.range call.st.points.num).filter call.st.isCenter := by
    apply List.filter_congr
    intro i _
    cases call.st.isCenter i <;> rfl
  rw [valid.count, rank, List.countP_eq_length_filter, ← filtered]
  rfl

/-- The rank of a center is below the number of centers. -/
theorem rank_lt (valid : call.st.Valid) (center : call.st.isCenter i = true)
    (known : i < call.st.points.num) : call.rank i < call.st.numcenters := by
  rw [numcenters_eq valid]
  exact rank_lt_rank center known

end Rank

section Numbering

variable {call} {pid : Nat}

/-- The loop that numbers the centers of a block, counting from a value. -/
theorem foldl_number (call : Call 𝕂) (size start count : Nat) (table : Nat → Nat) :
    let counted := (List.range' start size).foldl (fun (acc : (Nat → Nat) × Nat) i =>
      if call.st.isCenter i then (Function.update acc.1 i acc.2, acc.2 + 1) else acc) (table, count)
    counted.2 + call.rank start = count + call.rank (start + size) ∧
    (∀ i, start ≤ i → i < start + size → call.st.isCenter i = true →
      counted.1 i + call.rank start = count + call.rank i) ∧
    ∀ i, i < start ∨ start + size ≤ i → counted.1 i = table i := by
  induction size generalizing start count table with
  | zero => exact ⟨rfl, fun i low high => absurd low (by omega), fun _ _ => rfl⟩
  | succ size ih =>
    dsimp only
    rw [List.range'_succ, List.foldl_cons]
    have next := rank_succ call start
    have ends : start + (size + 1) = start + 1 + size := by omega
    rw [ends]
    cases center : call.st.isCenter start with
    | true =>
      rw [center, Bool.toNat_true] at next
      obtain ⟨counts, numbers, others⟩ := ih (start + 1) (count + 1) (Function.update table start
        count)
      simp only [if_true]
      refine ⟨by omega, ?_, ?_⟩
      · intro i low high marked
        rcases Nat.eq_or_lt_of_le low with rfl | above
        · rw [others start (.inl (Nat.lt_succ_self start)), Function.update_self]
        · have number := numbers i above high marked
          omega
      · intro i away
        rw [others i (by omega), Function.update_of_ne (by omega)]
    | false =>
      rw [center, Bool.toNat_false] at next
      obtain ⟨counts, numbers, others⟩ := ih (start + 1) count table
      simp only [Bool.false_eq_true, if_false]
      refine ⟨by omega, ?_, ?_⟩
      · intro i low high marked
        rcases Nat.eq_or_lt_of_le low with rfl | above
        · rw [center] at marked
          cases marked
        · have number := numbers i above high marked
          omega
      · intro i away
        exact others i (by omega)

variable (call pid) in
/-- The centers of a block are numbered from zero and counted. -/
def Counted (mem : Memory 𝕂) : Prop :=
  (∀ i ∈ call.block pid, call.st.isCenter i = true →
    mem.centerTable i + call.rank (call.k1 pid) = call.rank i) ∧
  ∃ count : Nat, mem.workMem (pid * call.stride) = count ∧
    count + call.rank (call.k1 pid) = call.rank (call.k2 pid)

/-- A row is not empty. -/
theorem stride_pos : 0 < call.stride := by
  have wide := call.stride_ge
  omega

/-- Different threads have different rows. -/
theorem row_ne {other : Nat} (apart : other ≠ pid) :
    other * call.stride ≠ pid * call.stride :=
  fun same => apart (Nat.eq_of_mul_eq_mul_right stride_pos same)

/-- The count of a block leaves the numbers and the counts of the others. -/
theorem countCenters_spec (mem : Memory 𝕂) (thread : pid < call.nproc) :
    call.Counted pid (call.countCenters mem pid) ∧
    (∀ i ∉ call.block pid, (call.countCenters mem pid).centerTable i = mem.centerTable i) ∧
    ∀ k ≠ pid * call.stride, (call.countCenters mem pid).workMem k = mem.workMem k := by
  obtain ⟨counts, numbers, others⟩ := call.foldl_number
    (call.k2 pid - call.k1 pid) (call.k1 pid) 0 mem.centerTable
  have ends : call.k1 pid + (call.k2 pid - call.k1 pid) = call.k2 pid :=
    Nat.add_sub_cancel' (k1_le_k2 thread)
  rw [ends, Nat.zero_add] at counts
  rw [ends] at numbers others
  refine ⟨⟨?_, _, Function.update_self _ _ _, counts⟩, ?_, ?_⟩
  · intro i member center
    obtain ⟨low, high⟩ := mem_block.mp member
    have number := numbers i low high center
    rwa [Nat.zero_add] at number
  · intro i away
    rw [mem_block] at away
    exact others i (by omega)
  · intro k away
    exact Function.update_of_ne away _ _

/-- In whatever order the threads count, all blocks are counted. -/
theorem foldl_countCenters {order : List Nat} (perm : order.Perm (List.range call.nproc))
    (mem : Memory 𝕂) :
    (order.foldl call.countCenters mem).costOfOpeningX = mem.costOfOpeningX ∧
    ∀ pid < call.nproc, call.Counted pid (order.foldl call.countCenters mem) := by
  have inside : ∀ pid ∈ order, pid < call.nproc :=
    fun pid member => List.mem_range.mp (perm.mem_iff.mp member)
  obtain ⟨cost, counted⟩ := foldl_forEach call.countCenters
    (fun state : Memory 𝕂 => state.costOfOpeningX = mem.costOfOpeningX) (fun _ _ => True)
    call.Counted order (perm.nodup_iff.mpr List.nodup_range)
    (fun state pid member same _ => ⟨same, (countCenters_spec state (inside pid member)).1⟩)
    (fun _ _ _ _ _ _ _ _ _ => trivial)
    (by
      intro state pid member other member' apart _ _ counted
      obtain ⟨-, table, work⟩ := countCenters_spec state (inside pid member)
      refine ⟨?_, ?_⟩
      · intro i own center
        rw [table i fun theirs => apart (block_unique own theirs (inside other member')
          (inside pid member))]
        exact counted.1 i own center
      · rw [work _ (row_ne apart)]
        exact counted.2)
    mem rfl (fun _ _ => trivial)
  exact ⟨cost, fun pid thread => counted pid (perm.mem_iff.mpr (List.mem_range.mpr thread))⟩

/-- The loop that replaces the counts of the blocks by their offsets. -/
theorem foldl_accumulate (mem : Memory 𝕂) (counted : ∀ pid < call.nproc, call.Counted pid mem)
    (n : Nat) (bound : n ≤ call.nproc) :
    let result := (List.range n).foldl (fun (acc : (Nat → 𝕂) × Nat) p =>
      let tmp := call.conv.toInt (acc.1 (p * call.stride))
      (Function.update acc.1 (p * call.stride) acc.2, acc.2 + tmp)) (mem.workMem, 0)
    (n < call.nproc → result.2 = call.rank (call.k1 n)) ∧
    (∀ p < n, result.1 (p * call.stride) = call.rank (call.k1 p)) ∧
    ∀ p, n ≤ p → result.1 (p * call.stride) = mem.workMem (p * call.stride) := by
  induction n with
  | zero =>
    refine ⟨fun _ => ?_, fun p low => absurd low (Nat.not_lt_zero p), fun _ _ => rfl⟩
    simp [rank, k1]
  | succ n ih =>
    obtain ⟨total, before, after⟩ := ih (by omega)
    dsimp only at total before after ⊢
    rw [List.range_succ, List.foldl_append, List.foldl_cons, List.foldl_nil]
    dsimp only
    obtain ⟨-, count, stored, ends⟩ := counted n (by omega)
    have sum := total (by omega)
    refine ⟨?_, ?_, ?_⟩
    · intro early
      rw [after n le_rfl, stored, call.conv.toInt_cast, sum]
      rw [k2_eq early] at ends
      omega
    · intro p low
      rcases Nat.lt_succ_iff_lt_or_eq.mp low with earlier | rfl
      · rw [Function.update_of_ne (row_ne (Nat.ne_of_lt earlier))]
        exact before p earlier
      · rw [Function.update_self, sum]
    · intro p high
      rw [Function.update_of_ne (row_ne (by omega))]
      exact after p (by omega)

variable (call pid) in
/-- The centers of a block are numbered from zero, and the offset of the block is known. -/
def Offset (mem : Memory 𝕂) : Prop :=
  (∀ i ∈ call.block pid, call.st.isCenter i = true →
    mem.centerTable i + call.rank (call.k1 pid) = call.rank i) ∧
  mem.workMem (pid * call.stride) = (call.rank (call.k1 pid) : 𝕂)

/-- The loop of the first thread makes the offsets of the threads. -/
theorem accumulate_spec (mem : Memory 𝕂) (counted : ∀ pid < call.nproc, call.Counted pid mem) :
    ∀ pid < call.nproc, call.Offset pid (call.accumulate mem) := by
  obtain ⟨-, offsets, -⟩ := foldl_accumulate mem counted call.nproc le_rfl
  intro pid thread
  exact ⟨(counted pid thread).1, offsets pid thread⟩

variable (call pid) in
/-- The centers of a block have their ranks as numbers. -/
def Numbered (mem : Memory 𝕂) : Prop :=
  ∀ i ∈ call.block pid, call.st.isCenter i = true → mem.centerTable i = call.rank i

/-- The loop that adds the offset to the numbers of the centers of a list. -/
theorem foldl_add (call : Call 𝕂) (offset : Nat) (points : List Nat) (nodup : points.Nodup)
    (table : Nat → Nat) :
    let added := points.foldl (fun table i =>
      if call.st.isCenter i then Function.update table i (table i + offset) else table) table
    ∀ i, added i =
      if i ∈ points ∧ call.st.isCenter i = true then table i + offset else table i := by
  induction points generalizing table with
  | nil => simp
  | cons first points ih =>
    obtain ⟨fresh, nodup⟩ := List.nodup_cons.mp nodup
    intro added i
    have rest := ih nodup (if call.st.isCenter first then
      Function.update table first (table first + offset) else table) i
    refine rest.trans ?_
    by_cases here : i = first
    · subst here
      cases center : call.st.isCenter i <;> simp [fresh]
    · cases center : call.st.isCenter first <;> simp [here]

/-- A thread adds its offset to the numbers of its centers. -/
theorem addOffset_spec (mem : Memory 𝕂) (offset : call.Offset pid mem) :
    call.Numbered pid (call.addOffset mem pid) ∧
    ∀ i ∉ call.block pid, (call.addOffset mem pid).centerTable i = mem.centerTable i := by
  have added := foldl_add call (call.conv.toInt (mem.workMem (pid * call.stride)))
    (call.block pid) block_nodup mem.centerTable
  rw [offset.2, call.conv.toInt_cast] at added
  have table : ∀ i, (call.addOffset mem pid).centerTable i =
      if i ∈ call.block pid ∧ call.st.isCenter i = true then
        mem.centerTable i + call.rank (call.k1 pid) else mem.centerTable i := by
    intro i
    unfold addOffset
    rw [offset.2, call.conv.toInt_cast]
    exact added i
  constructor
  · intro i member center
    rw [table, if_pos ⟨member, center⟩]
    exact offset.1 i member center
  · intro i away
    rw [table, if_neg fun both => away both.1]

variable (call pid) in
/-- The row of a thread and its part of the array of switches are clear. -/
structure Clear (mem : Memory 𝕂) : Prop where
  /-- No point of the block is marked. -/
  switchMembership : ∀ i ∈ call.block pid, mem.switchMembership i = false
  /-- The row is zero. -/
  workMem : ∀ j < call.stride, mem.workMem (pid * call.stride + j) = 0

/-- What the first phases prepare: numbered centers and clear memory. -/
structure Ready (mem : Memory 𝕂) : Prop where
  /-- The centers are numbered. -/
  numbered : ∀ pid < call.nproc, call.Numbered pid mem
  /-- The memory of the threads is clear. -/
  clear : ∀ pid < call.nproc, call.Clear pid mem
  /-- The costs of the threads are zero. -/
  costOfOpeningX : ∀ pid < call.nproc, mem.costOfOpeningX pid = 0

/-- In whatever order the threads add their offsets, all centers get their ranks. -/
theorem foldl_addOffset {order : List Nat} (perm : order.Perm (List.range call.nproc))
    (mem : Memory 𝕂) (offset : ∀ pid < call.nproc, call.Offset pid mem) :
    (order.foldl call.addOffset mem).costOfOpeningX = mem.costOfOpeningX ∧
    ∀ pid < call.nproc, call.Numbered pid (order.foldl call.addOffset mem) := by
  have inside : ∀ pid ∈ order, pid < call.nproc :=
    fun pid member => List.mem_range.mp (perm.mem_iff.mp member)
  have table : ∀ state : Memory 𝕂, ∀ pid ∈ order, ∀ other ∈ order, other ≠ pid →
      call.Offset pid state → ∀ i ∈ call.block other,
      (call.addOffset state pid).centerTable i = state.centerTable i := by
    intro state pid member other member' apart offset i own
    exact (addOffset_spec state offset).2 i fun theirs => apart (block_unique own theirs
      (inside other member') (inside pid member))
  obtain ⟨cost, numbered⟩ := foldl_forEach call.addOffset
    (fun state : Memory 𝕂 => state.costOfOpeningX = mem.costOfOpeningX) call.Offset
    call.Numbered order (perm.nodup_iff.mpr List.nodup_range)
    (fun state pid _ same offset => ⟨same, (addOffset_spec state offset).1⟩)
    (by
      intro state pid member other member' apart _ offset offset'
      refine ⟨?_, offset'.2⟩
      intro i own center
      rw [table state pid member other member' apart offset i own]
      exact offset'.1 i own center)
    (by
      intro state pid member other member' apart _ offset numbered i own center
      rw [table state pid member other member' apart offset i own]
      exact numbered i own center)
    mem rfl (fun pid member => offset pid (inside pid member))
  exact ⟨cost, fun pid thread => numbered pid (perm.mem_iff.mpr (List.mem_range.mpr thread))⟩

/-- The FastFlow version prepares the memory. -/
theorem ready_ff (mem : Memory 𝕂) (offset : ∀ pid < call.nproc, call.Offset pid mem)
    (cost : mem.costOfOpeningX = fun _ => 0) :
    call.Ready (call.clearAll ((List.range call.nproc).foldl call.addOffset mem)) := by
  obtain ⟨same, numbered⟩ := foldl_addOffset (List.Perm.refl _) mem offset
  constructor
  · exact numbered
  · intro pid thread
    constructor
    · intro i member
      exact if_pos (block_lt member thread)
    · intro j inside
      have row : (pid + 1) * call.stride ≤ call.nproc * call.stride :=
        Nat.mul_le_mul_right _ thread
      have cell : pid * call.stride + j < call.stride * (call.nproc + 1) := by
        rw [Nat.succ_mul] at row
        rw [Nat.mul_succ, Nat.mul_comm call.stride]
        omega
      exact if_pos cell
  · intro pid _
    show (((List.range call.nproc).foldl call.addOffset mem).costOfOpeningX) pid = 0
    rw [same, cost]

/-- Clearing the memory of one thread leaves the rows of the others. -/
theorem clearOwn_workMem {other j : Nat} (mem : Memory 𝕂) (inside : j < call.stride)
    (thread : other < call.nproc) (apart : other ≠ pid) :
    (call.clearOwn mem pid).workMem (other * call.stride + j) =
      mem.workMem (other * call.stride + j) := by
  have away : ∀ row, other ≠ row → ¬(row * call.stride ≤ other * call.stride + j ∧
      other * call.stride + j < row * call.stride + call.stride) := by
    intro row distinct hit
    have column : other * call.stride + j - row * call.stride < call.stride := by omega
    have split : other * call.stride + j = row * call.stride +
        (other * call.stride + j - row * call.stride) := by omega
    exact distinct (cell_inj inside column split).1
  unfold clearOwn
  dsimp only
  rw [if_neg (away pid apart), if_neg]
  rintro ⟨-, hit⟩
  exact away call.nproc (Nat.ne_of_lt thread) hit

/-- The step of a thread in the second phase of the pthreads version. -/
theorem clearOwn_addOffset (mem : Memory 𝕂) (offset : call.Offset pid mem) :
    call.Numbered pid (call.clearOwn (call.addOffset mem pid) pid) ∧
    call.Clear pid (call.clearOwn (call.addOffset mem pid) pid) := by
  refine ⟨(addOffset_spec mem offset).1, ?_, ?_⟩
  · intro i member
    exact if_pos (mem_block.mp member)
  · intro j inside
    exact if_pos ⟨Nat.le_add_right _ _, Nat.add_lt_add_left inside _⟩

/-- The pthreads version prepares the memory, in whatever order the threads run. -/
theorem ready_pthreads {order : List Nat} (perm : order.Perm (List.range call.nproc))
    (mem : Memory 𝕂) (offset : ∀ pid < call.nproc, call.Offset pid mem)
    (cost : mem.costOfOpeningX = fun _ => 0) :
    call.Ready (order.foldl (fun mem pid => call.clearOwn (call.addOffset mem pid) pid) mem) := by
  have inside : ∀ pid ∈ order, pid < call.nproc :=
    fun pid member => List.mem_range.mp (perm.mem_iff.mp member)
  have away : ∀ {pid other : Nat}, pid ∈ order → other ∈ order → other ≠ pid →
      ∀ i ∈ call.block other, i ∉ call.block pid := by
    intro pid other member member' apart i own theirs
    exact apart (block_unique own theirs (inside other member') (inside pid member))
  have table : ∀ state : Memory 𝕂, ∀ pid ∈ order, ∀ other ∈ order, other ≠ pid →
      call.Offset pid state → ∀ i ∈ call.block other,
      (call.clearOwn (call.addOffset state pid) pid).centerTable i = state.centerTable i := by
    intro state pid member other member' apart offset i own
    exact (addOffset_spec state offset).2 i (away member member' apart i own)
  obtain ⟨cost', done⟩ := foldl_forEach
    (fun mem pid => call.clearOwn (call.addOffset mem pid) pid)
    (fun state : Memory 𝕂 => state.costOfOpeningX = mem.costOfOpeningX) call.Offset
    (fun pid state => call.Numbered pid state ∧ call.Clear pid state) order
    (perm.nodup_iff.mpr List.nodup_range)
    (fun state pid _ same offset => ⟨same, clearOwn_addOffset state offset⟩)
    (by
      intro state pid member other member' apart _ offset offset'
      refine ⟨?_, ?_⟩
      · intro i own center
        rw [table state pid member other member' apart offset i own]
        exact offset'.1 i own center
      · have kept := clearOwn_workMem (call.addOffset state pid) stride_pos
          (inside other member') apart
        exact kept.trans offset'.2)
    (by
      intro state pid member other member' apart _ offset done
      refine ⟨?_, ?_, ?_⟩
      · intro i own center
        rw [table state pid member other member' apart offset i own]
        exact done.1 i own center
      · intro i own
        have outside := away member member' apart i own
        rw [mem_block] at outside
        exact (if_neg outside).trans (done.2.switchMembership i own)
      · intro j column
        exact (clearOwn_workMem (call.addOffset state pid) column (inside other member')
          apart).trans (done.2.workMem j column))
    mem rfl (fun pid member => offset pid (inside pid member))
  have member : ∀ {pid}, pid < call.nproc → pid ∈ order :=
    fun thread => perm.mem_iff.mpr (List.mem_range.mpr thread)
  refine ⟨fun pid thread => (done pid (member thread)).1,
    fun pid thread => (done pid (member thread)).2, ?_⟩
  intro pid _
  rw [cost', cost]

/-- In both versions the centers are numbered and the memory is clear. -/
theorem tabulate_ready {version : Version} {sched : Schedule call.nproc} {mem : Memory 𝕂} :
    call.Ready (call.tabulate version sched mem) := by
  cases version with
  | ff =>
    obtain ⟨cost, counted⟩ := foldl_countCenters (List.Perm.refl (List.range call.nproc))
      { mem with costOfOpeningX := fun _ => 0 }
    exact ready_ff _ (accumulate_spec _ counted) cost
  | pthreads =>
    obtain ⟨cost, counted⟩ := foldl_countCenters (sched.perm .count)
      { mem with costOfOpeningX := fun _ => 0 }
    exact ready_pthreads (sched.perm .offset) _ (accumulate_spec _ counted) cost

/-- All centers have their ranks as numbers. -/
def AllNumbered (call : Call 𝕂) (mem : Memory 𝕂) : Prop :=
  ∀ pid < call.nproc, call.Numbered pid mem

/-- The number of a center is its rank. -/
theorem AllNumbered.rank {mem : Memory 𝕂} (numbered : call.AllNumbered mem)
    (threads : 0 < call.nproc) {i : Nat} (center : call.st.isCenter i = true)
    (known : i < call.st.points.num) : mem.centerTable i = call.rank i := by
  obtain ⟨pid, thread, member⟩ := exists_block threads known
  exact numbered pid thread i member center

/-- The center of a point. -/
theorem assign_center (valid : call.st.Valid) {i : Nat} (known : i < call.st.points.num) :
    (call.st.points.p i).assign < call.st.points.num ∧
      call.st.isCenter (call.st.points.p i).assign = true :=
  Clustering.mem_opened.mp (valid.formed.assign i (Finset.mem_range.mpr known))

end Numbering

section Gain

variable [LinearOrder 𝕂]

/-- A point is strictly cheaper off at `x`. -/
def Switches (i : Nat) : Prop := call.st.plan.Switches (call.st.points.price call.x) i

instance (i : Nat) : Decidable (call.Switches i) := inferInstanceAs (Decidable (_ < _))

/-- What a point pays more when it goes over to `x`. -/
def extra (i : Nat) : 𝕂 := call.st.points.price call.x i - (call.st.points.p i).cost

/-- What the points of a list pay more that go over by themselves. -/
def switchCost (points : List Nat) : 𝕂 :=
  (points.map fun i => if call.Switches i then call.extra i else 0).sum

/-- What the other points of a list pay less that are assigned to a center with a given number. -/
def lowerOf (number : Nat → Nat) (points : List Nat) (k : Nat) : 𝕂 :=
  (points.map fun i => if ¬call.Switches i ∧ number (call.st.points.p i).assign = k then
    -call.extra i else 0).sum

variable {call} {pid : Nat}

/-- The loop over the points of a thread, in every component of the memory. -/
theorem foldl_considerPoint (call : Call 𝕂) (pid : Nat) (points : List Nat) (mem : Memory 𝕂) :
    let after := points.foldl (call.considerPoint pid) mem
    after.centerTable = mem.centerTable ∧
    (∀ i, after.switchMembership i =
      (mem.switchMembership i || decide (i ∈ points ∧ call.Switches i))) ∧
    (∀ other, after.costOfOpeningX other =
      mem.costOfOpeningX other + if pid = other then call.switchCost points else 0) ∧
    ∀ k, after.workMem k = mem.workMem k +
      call.lowerOf (fun i => pid * call.stride + mem.centerTable i) points k := by
  induction points generalizing mem with
  | nil => simp [switchCost, lowerOf]
  | cons i points ih =>
    obtain ⟨table, switched, cost, work⟩ := ih (call.considerPoint pid mem i)
    by_cases switches : call.Switches i
    · have step : call.considerPoint pid mem i = { mem with
          switchMembership := Function.update mem.switchMembership i true
          costOfOpeningX := addAt mem.costOfOpeningX pid (call.extra i) } := if_pos switches
      rw [step] at table switched cost work
      dsimp only at table switched cost work ⊢
      rw [List.foldl_cons, step]
      refine ⟨table, ?_, ?_, ?_⟩
      · intro j
        rw [switched]
        by_cases here : j = i
        · subst here
          simp [switches]
        · simp [here]
      · intro other
        rw [cost, addAt_apply, add_assoc, switchCost, switchCost, List.map_cons, List.sum_cons,
          if_pos switches]
        split <;> simp
      · intro k
        rw [work, lowerOf, lowerOf, List.map_cons, List.sum_cons]
        simp [switches]
    · have step : call.considerPoint pid mem i = { mem with
          workMem := addAt mem.workMem
            (pid * call.stride + mem.centerTable (call.st.points.p i).assign)
            (-call.extra i) } := by
        rw [extra, neg_sub]
        exact if_neg switches
      rw [step] at table switched cost work
      dsimp only at table switched cost work ⊢
      rw [List.foldl_cons, step]
      refine ⟨table, ?_, ?_, ?_⟩
      · intro j
        rw [switched]
        by_cases here : j = i
        · subst here
          simp [switches]
        · simp [here]
      · intro other
        rw [cost, switchCost, switchCost, List.map_cons, List.sum_cons, if_neg switches, zero_add]
      · intro k
        rw [work, addAt_apply, add_assoc, lowerOf, lowerOf, List.map_cons, List.sum_cons]
        simp [switches]

variable (call pid) in
/-- What the loop over the points of a block leaves: the switches, the cost of the thread and the
row of the thread, by the ranks of the centers. -/
structure Gained (mem : Memory 𝕂) : Prop where
  /-- The points that go over by themselves are marked. -/
  switchMembership : ∀ i ∈ call.block pid, mem.switchMembership i = decide (call.Switches i)
  /-- The cost of the points that go over by themselves. -/
  costOfOpeningX : mem.costOfOpeningX pid = call.switchCost (call.block pid)
  /-- The savings of the centers from the points of the block. -/
  workMem : ∀ k < call.stride,
    mem.workMem (pid * call.stride + k) = call.lowerOf call.rank (call.block pid) k

/-- With the ranks as numbers, the row of the thread gets the savings by rank, and no other row
changes. -/
theorem lowerOf_row (valid : call.st.Valid) (thread : pid < call.nproc) {mem : Memory 𝕂}
    (numbered : call.AllNumbered mem) {row k : Nat} (inside : k < call.stride) :
    call.lowerOf (fun i => pid * call.stride + mem.centerTable i) (call.block pid)
        (row * call.stride + k) =
      if pid = row then call.lowerOf call.rank (call.block pid) k else 0 := by
  have key : ∀ i ∈ call.block pid,
      (pid * call.stride + mem.centerTable (call.st.points.p i).assign = row * call.stride + k ↔
        pid = row ∧ call.rank (call.st.points.p i).assign = k) := by
    intro i member
    obtain ⟨known, center⟩ := assign_center valid (block_lt member thread)
    rw [numbered.rank (Nat.zero_lt_of_lt thread) center known]
    have column := rank_lt valid center known
    have wide := call.stride_ge
    constructor
    · exact fun same => cell_inj (by omega) inside same
    · rintro ⟨rfl, rfl⟩
      rfl
  unfold lowerOf
  split
  · rename_i here
    subst here
    congr 1
    apply List.map_congr_left
    intro i member
    simp only [key i member, true_and]
  · rename_i away
    apply List.sum_eq_zero
    intro amount member
    obtain ⟨i, inBlock, rfl⟩ := List.mem_map.mp member
    simp [key i inBlock, away]

/-- The loop over the points of one thread. -/
theorem gainLoop_spec (valid : call.st.Valid) (thread : pid < call.nproc) {mem : Memory 𝕂}
    (numbered : call.AllNumbered mem) :
    (call.gainLoop mem pid).centerTable = mem.centerTable ∧
    (∀ i ∉ call.block pid,
      (call.gainLoop mem pid).switchMembership i = mem.switchMembership i) ∧
    (∀ other ≠ pid, (call.gainLoop mem pid).costOfOpeningX other = mem.costOfOpeningX other) ∧
    (∀ other ≠ pid, ∀ k < call.stride, (call.gainLoop mem pid).workMem (other * call.stride + k) =
      mem.workMem (other * call.stride + k)) ∧
    (call.Clear pid mem → mem.costOfOpeningX pid = 0 →
      call.Gained pid (call.gainLoop mem pid)) := by
  obtain ⟨table, switched, cost, work⟩ := foldl_considerPoint call pid (call.block pid) mem
  refine ⟨table, ?_, ?_, ?_, ?_⟩
  · intro i away
    refine (switched i).trans ?_
    simp [away]
  · intro other away
    refine (cost other).trans ?_
    rw [if_neg (Ne.symm away), add_zero]
  · intro other away k inside
    refine (work _).trans ?_
    rw [lowerOf_row valid thread numbered inside, if_neg (Ne.symm away), add_zero]
  · intro clear zero
    constructor
    · intro i member
      refine (switched i).trans ?_
      rw [clear.switchMembership i member, Bool.false_or]
      simp [member]
    · refine (cost pid).trans ?_
      rw [zero, if_pos rfl, zero_add]
    · intro k inside
      refine (work _).trans ?_
      rw [clear.workMem k inside, lowerOf_row valid thread numbered inside, if_pos rfl, zero_add]

/-- In whatever order the threads look at their points. -/
theorem foldl_gainLoop (valid : call.st.Valid) {order : List Nat}
    (perm : order.Perm (List.range call.nproc)) {mem : Memory 𝕂} (ready : call.Ready mem) :
    call.AllNumbered (order.foldl call.gainLoop mem) ∧
    ∀ pid < call.nproc, call.Gained pid (order.foldl call.gainLoop mem) := by
  have inside : ∀ pid ∈ order, pid < call.nproc :=
    fun pid member => List.mem_range.mp (perm.mem_iff.mp member)
  have away : ∀ {pid other : Nat}, pid ∈ order → other ∈ order → other ≠ pid →
      ∀ i ∈ call.block other, i ∉ call.block pid := by
    intro pid other member member' apart i own theirs
    exact apart (block_unique own theirs (inside other member') (inside pid member))
  obtain ⟨numbered, gained⟩ := foldl_forEach call.gainLoop call.AllNumbered
    (fun pid state => call.Clear pid state ∧ state.costOfOpeningX pid = 0) call.Gained order
    (perm.nodup_iff.mpr List.nodup_range)
    (by
      intro state pid member numbered clear
      obtain ⟨table, -, -, -, done⟩ := gainLoop_spec valid (inside pid member) numbered
      refine ⟨?_, done clear.1 clear.2⟩
      intro other thread i own center
      rw [table]
      exact numbered other thread i own center)
    (by
      intro state pid member other member' apart numbered _ clear
      obtain ⟨-, switched, cost, work, -⟩ := gainLoop_spec valid (inside pid member) numbered
      refine ⟨⟨?_, ?_⟩, ?_⟩
      · intro i own
        rw [switched i (away member member' apart i own)]
        exact clear.1.switchMembership i own
      · intro k column
        rw [work other apart k column]
        exact clear.1.workMem k column
      · rw [cost other apart]
        exact clear.2)
    (by
      intro state pid member other member' apart numbered _ gained
      obtain ⟨-, switched, cost, work, -⟩ := gainLoop_spec valid (inside pid member) numbered
      constructor
      · intro i own
        rw [switched i (away member member' apart i own)]
        exact gained.switchMembership i own
      · rw [cost other apart]
        exact gained.costOfOpeningX
      · intro k column
        rw [work other apart k column]
        exact gained.workMem k column)
    mem ready.numbered
    (fun pid member => ⟨ready.clear pid (inside pid member),
      ready.costOfOpeningX pid (inside pid member)⟩)
  exact ⟨numbered, fun pid thread => gained pid (perm.mem_iff.mpr (List.mem_range.mpr thread))⟩

end Gain

section Lower

variable [LinearOrder 𝕂]

/-- What closing a center saves. -/
def saving (i : Nat) : 𝕂 := call.st.plan.saving call.z (call.st.points.price call.x) i

/-- A center whose closing saves money. -/
def Closing (i : Nat) : Prop :=
  call.st.isCenter i = true ∧ call.st.plan.Closes call.z (call.st.points.price call.x) i

instance (i : Nat) : Decidable (call.Closing i) := inferInstanceAs (Decidable (_ ∧ _))

/-- The savings of the centers of a list that close. -/
def closeCost (points : List Nat) : 𝕂 :=
  (points.map fun i => if call.Closing i then -call.saving i else 0).sum

/-- The number of centers of a list that close. -/
def closeCount (points : List Nat) : Nat :=
  (points.map fun i => if call.Closing i then 1 else 0).sum

variable {call} {pid : Nat}

/-- The rows of the threads add up to the saving of a center. -/
theorem saving_eq (valid : call.st.Valid) (threads : 0 < call.nproc) {i : Nat}
    (center : call.st.isCenter i = true) :
    call.z +
      ∑ row ∈ Finset.range call.nproc, call.lowerOf call.rank (call.block row) (call.rank i) =
      call.saving i := by
  unfold lowerOf saving Plan.saving
  rw [sum_blocks threads, Finset.sum_filter]
  congr 1
  apply Finset.sum_congr rfl
  intro client member
  have served := (assign_center valid (Finset.mem_range.mp member)).2
  have same : call.rank (call.st.points.p client).assign = call.rank i ↔
      (call.st.points.p client).assign = i :=
    ⟨rank_inj served center, fun here => by rw [here]⟩
  have paid : -call.extra client =
      call.st.plan.cost client - call.st.points.price call.x client := neg_sub _ _
  simp only [same, paid, and_comm]
  rfl

variable (call) in
/-- The rows of the threads hold the savings by rank. -/
structure Summed (mem : Memory 𝕂) : Prop where
  /-- The centers are numbered. -/
  numbered : call.AllNumbered mem
  /-- The points that go over by themselves are marked. -/
  switchMembership : ∀ i < call.st.points.num,
    mem.switchMembership i = decide (call.Switches i)
  /-- The rows. -/
  workMem : ∀ row < call.nproc, ∀ k < call.st.numcenters,
    mem.workMem (row * call.stride + k) = call.lowerOf call.rank (call.block row) k

/-- A loop that adds. -/
theorem foldl_add_eq_sum {M : Type} [AddCommMonoid M] (amount : Nat → M) (n : Nat) (start : M) :
    (List.range n).foldl (fun total p => total + amount p) start =
      start + ∑ p ∈ Finset.range n, amount p := by
  induction n with
  | zero => simp
  | succ n ih =>
    rw [List.range_succ, List.foldl_append, ih, List.foldl_cons, List.foldl_nil,
      Finset.sum_range_succ, add_assoc]

/-- The entry of a center is what its points save. -/
theorem low_eq (valid : call.st.Valid) (threads : 0 < call.nproc) {mem : Memory 𝕂}
    (summed : call.Summed mem) {i : Nat} (known : i < call.st.points.num)
    (center : call.st.isCenter i = true) : call.low mem i = call.saving i := by
  rw [← saving_eq valid threads center, low, foldl_add_eq_sum]
  congr 1
  apply Finset.sum_congr rfl
  intro row member
  rw [summed.numbered.rank threads center known, Nat.add_comm]
  exact summed.workMem row (Finset.mem_range.mp member) _ (rank_lt valid center known)

omit [LinearOrder 𝕂] in
/-- The common row is none of the rows of the threads. -/
theorem common_ne (valid : call.st.Valid) {row k i : Nat} (thread : row < call.nproc)
    (inside : k < call.stride) (known : i < call.st.points.num)
    (center : call.st.isCenter i = true) :
    row * call.stride + k ≠ call.nproc * call.stride + call.rank i := by
  intro same
  have column := rank_lt valid center known
  have wide := call.stride_ge
  have rows := (cell_inj inside (by omega) same).1
  omega

/-- The body of the loop over the centers, with the saving in place of the sum. -/
theorem considerCenter_eq (pid : Nat) (valid : call.st.Valid) (threads : 0 < call.nproc)
    {mem : Memory 𝕂}
    (summed : call.Summed mem) {i : Nat} (known : i < call.st.points.num) :
    call.considerCenter pid mem i =
      if call.st.isCenter i = true then { mem with
        workMem := Function.update mem.workMem (call.nproc * call.stride + call.rank i)
          (call.saving i)
        numberOfCentersToClose := addAt mem.numberOfCentersToClose pid
          (if call.Closing i then 1 else 0)
        costOfOpeningX := addAt mem.costOfOpeningX pid
          (if call.Closing i then -call.saving i else 0) }
      else mem := by
  unfold considerCenter
  by_cases center : call.st.isCenter i = true
  · rw [if_pos center, if_pos center]
    dsimp only
    rw [low_eq valid threads summed known center, summed.numbered.rank threads center known]
    have nothing : ∀ {M : Type} [AddZeroClass M] (table : Nat → M), addAt table pid 0 = table := by
      intro M _ table
      funext k
      rw [addAt_apply]
      split <;> exact add_zero _
    by_cases positive : 0 < call.saving i
    · have closing : call.Closing i := ⟨center, positive⟩
      rw [if_pos positive, if_pos closing, if_pos closing]
    · have stays : ¬call.Closing i := fun closing => positive closing.2
      rw [if_neg positive, if_neg stays, if_neg stays, nothing, nothing]
  · rw [if_neg center, if_neg center]

/-- The loop over the centers of a thread, in every component of the memory. -/
theorem foldl_considerCenter (valid : call.st.Valid) (threads : 0 < call.nproc) (pid : Nat)
    (points : List Nat) (known : ∀ i ∈ points, i < call.st.points.num) (mem : Memory 𝕂)
    (summed : call.Summed mem) :
    let after := points.foldl (call.considerCenter pid) mem
    after.centerTable = mem.centerTable ∧ after.switchMembership = mem.switchMembership ∧
    (∀ other, after.costOfOpeningX other =
      mem.costOfOpeningX other + if pid = other then call.closeCost points else 0) ∧
    (∀ other, after.numberOfCentersToClose other =
      mem.numberOfCentersToClose other + if pid = other then call.closeCount points else 0) ∧
    (∀ row < call.nproc, ∀ k < call.stride,
      after.workMem (row * call.stride + k) = mem.workMem (row * call.stride + k)) ∧
    ∀ i < call.st.points.num, call.st.isCenter i = true →
      after.workMem (call.nproc * call.stride + call.rank i) =
        if i ∈ points then call.saving i
        else mem.workMem (call.nproc * call.stride + call.rank i) := by
  induction points generalizing mem with
  | nil => simp [closeCost, closeCount]
  | cons first points ih =>
    have inside := known first List.mem_cons_self
    have step := considerCenter_eq pid valid threads summed inside
    have others := fun i member => known i (List.mem_cons_of_mem first member)
    dsimp only at ih ⊢
    rw [List.foldl_cons]
    by_cases center : call.st.isCenter first = true
    · rw [if_pos center] at step
      have rows : ∀ row < call.nproc, ∀ k < call.stride,
          (call.considerCenter pid mem first).workMem (row * call.stride + k) =
            mem.workMem (row * call.stride + k) := by
        intro row thread k column
        rw [step]
        exact Function.update_of_ne (common_ne valid thread column inside center) _ _
      have summed' : call.Summed (call.considerCenter pid mem first) := by
        have wide := call.stride_ge
        refine ⟨?_, ?_, ?_⟩
        · rw [step]
          exact summed.numbered
        · rw [step]
          exact summed.switchMembership
        · intro row thread k column
          rw [rows row thread k (by omega)]
          exact summed.workMem row thread k column
      obtain ⟨table, switched, cost, count, work, common⟩ := ih others _ summed'
      refine ⟨table.trans (by rw [step]), switched.trans (by rw [step]), ?_, ?_, ?_, ?_⟩
      · intro other
        rw [cost, step]
        dsimp only
        rw [addAt_apply, add_assoc, closeCost, closeCost, List.map_cons, List.sum_cons]
        split <;> simp
      · intro other
        rw [count, step]
        dsimp only
        rw [addAt_apply, add_assoc, closeCount, closeCount, List.map_cons, List.sum_cons]
        split <;> simp
      · intro row thread k column
        rw [work row thread k column, rows row thread k column]
      · intro i here marked
        rw [common i here marked, step]
        by_cases same : i = first
        · subst same
          simp
        · have apart : call.nproc * call.stride + call.rank i ≠
              call.nproc * call.stride + call.rank first := by
            intro equal
            exact same (rank_inj marked center (by omega))
          dsimp only
          rw [Function.update_of_ne apart]
          simp only [List.mem_cons, same, false_or]
    · rw [if_neg center] at step
      rw [step]
      have stays : ¬call.Closing first := fun closing => center closing.1
      obtain ⟨table, switched, cost, count, work, common⟩ := ih others mem summed
      refine ⟨table, switched, ?_, ?_, work, ?_⟩
      · intro other
        rw [cost, closeCost, closeCost, List.map_cons, List.sum_cons, if_neg stays, zero_add]
      · intro other
        rw [count, closeCount, closeCount, List.map_cons, List.sum_cons, if_neg stays, zero_add]
      · intro i here marked
        have apart : i ≠ first := by
          rintro rfl
          exact center marked
        rw [common i here marked]
        simp [apart]

variable (call pid) in
/-- What the loop over the centers of a block leaves. -/
structure Lowered (mem : Memory 𝕂) : Prop where
  /-- The common row has the savings of the centers of the block. -/
  common : ∀ i ∈ call.block pid, call.st.isCenter i = true →
    mem.workMem (call.nproc * call.stride + call.rank i) = call.saving i
  /-- The number of centers of the block that close. -/
  count : mem.workMem (pid * call.stride + call.K) = (call.closeCount (call.block pid) : 𝕂)
  /-- The cost of the thread. -/
  cost : mem.workMem (pid * call.stride + call.K + 1) =
    call.switchCost (call.block pid) + call.closeCost (call.block pid)

/-- The loop over the centers of one thread. -/
theorem lowerLoop_spec (valid : call.st.Valid) (thread : pid < call.nproc) {mem : Memory 𝕂}
    (summed : call.Summed mem) :
    call.Summed (call.lowerLoop mem pid) ∧
    (∀ other ≠ pid, (call.lowerLoop mem pid).costOfOpeningX other = mem.costOfOpeningX other) ∧
    (∀ other < call.nproc, other ≠ pid → ∀ k < call.stride,
      (call.lowerLoop mem pid).workMem (other * call.stride + k) =
        mem.workMem (other * call.stride + k)) ∧
    (∀ i < call.st.points.num, i ∉ call.block pid → call.st.isCenter i = true →
      (call.lowerLoop mem pid).workMem (call.nproc * call.stride + call.rank i) =
        mem.workMem (call.nproc * call.stride + call.rank i)) ∧
    (mem.costOfOpeningX pid = call.switchCost (call.block pid) →
      call.Lowered pid (call.lowerLoop mem pid)) := by
  have threads := Nat.zero_lt_of_lt thread
  have wide := call.K_spec
  have cleared : call.Summed { mem with
      numberOfCentersToClose := Function.update mem.numberOfCentersToClose pid 0 } :=
    ⟨summed.numbered, summed.switchMembership, summed.workMem⟩
  obtain ⟨table, switched, cost, count, work, common⟩ := foldl_considerCenter valid threads pid
    (call.block pid) (fun i member => block_lt member thread) _ cleared
  -- the two cells behind the centers are written last
  have cells : ∀ row k, k < call.stride → (row ≠ pid ∨ k < call.K) →
      (call.lowerLoop mem pid).workMem (row * call.stride + k) =
        ((call.block pid).foldl (call.considerCenter pid) { mem with
          numberOfCentersToClose := Function.update mem.numberOfCentersToClose pid 0 }).workMem
          (row * call.stride + k) := by
    intro row k inside apart
    have first : row * call.stride + k ≠ pid * call.stride + call.K := by
      intro same
      have equal := cell_inj inside (by omega) same
      omega
    have second : row * call.stride + k ≠ pid * call.stride + call.K + 1 := by
      intro same
      have equal := cell_inj inside (by omega : call.K + 1 < call.stride) same
      omega
    unfold lowerLoop
    dsimp only
    rw [Function.update_of_ne second, Function.update_of_ne first]
  refine ⟨⟨?_, ?_, ?_⟩, ?_, ?_, ?_, ?_⟩
  · intro other inside i own center
    exact (congrFun table i).trans (summed.numbered other inside i own center)
  · intro i known
    exact (congrFun switched i).trans (summed.switchMembership i known)
  · intro row inside k column
    rw [cells row k (by omega) (.inr (by omega)), work row inside k (by omega)]
    exact summed.workMem row inside k column
  · intro other away
    refine (cost other).trans ?_
    rw [if_neg (Ne.symm away), add_zero]
  · intro other inside away k column
    rw [cells other k column (.inl away), work other inside k column]
  · intro i known away center
    have column := rank_lt valid center known
    rw [cells call.nproc _ (by omega) (.inr (by omega)), common i known center, if_neg away]
  · intro own
    constructor
    · intro i member center
      have known := block_lt member thread
      have column := rank_lt valid center known
      rw [cells call.nproc _ (by omega) (.inr (by omega)), common i known center, if_pos member]
    · have apart : pid * call.stride + call.K ≠ pid * call.stride + call.K + 1 := by omega
      unfold lowerLoop
      dsimp only
      rw [Function.update_of_ne apart, Function.update_self, count pid, if_pos rfl]
      dsimp only
      rw [Function.update_self, Nat.zero_add]
    · unfold lowerLoop
      dsimp only
      rw [Function.update_self, cost pid, if_pos rfl, own]

/-- In whatever order the threads look at their centers. -/
theorem foldl_lowerLoop (valid : call.st.Valid) {order : List Nat}
    (perm : order.Perm (List.range call.nproc)) {mem : Memory 𝕂} (summed : call.Summed mem)
    (cost : ∀ pid < call.nproc, mem.costOfOpeningX pid = call.switchCost (call.block pid)) :
    call.Summed (order.foldl call.lowerLoop mem) ∧
    ∀ pid < call.nproc, call.Lowered pid (order.foldl call.lowerLoop mem) := by
  have inside : ∀ pid ∈ order, pid < call.nproc :=
    fun pid member => List.mem_range.mp (perm.mem_iff.mp member)
  have wide := call.K_spec
  obtain ⟨kept, lowered⟩ := foldl_forEach call.lowerLoop call.Summed
    (fun pid state => state.costOfOpeningX pid = call.switchCost (call.block pid)) call.Lowered
    order (perm.nodup_iff.mpr List.nodup_range)
    (by
      intro state pid member summed own
      obtain ⟨kept, -, -, -, done⟩ := lowerLoop_spec valid (inside pid member) summed
      exact ⟨kept, done own⟩)
    (by
      intro state pid member other _ apart summed _ own
      obtain ⟨-, cost, -⟩ := lowerLoop_spec valid (inside pid member) summed
      exact (cost other apart).trans own)
    (by
      intro state pid member other member' apart summed _ lowered
      obtain ⟨-, -, rows, common, -⟩ := lowerLoop_spec valid (inside pid member) summed
      have row := rows other (inside other member') apart
      constructor
      · intro i own center
        have away : i ∉ call.block pid := fun theirs =>
          apart (block_unique own theirs (inside other member') (inside pid member))
        rw [common i (block_lt own (inside other member')) away center]
        exact lowered.common i own center
      · rw [row call.K (by omega)]
        exact lowered.count
      · exact (row (call.K + 1) (by omega)).trans lowered.cost)
    mem summed (fun pid member => cost pid (inside pid member))
  exact ⟨kept, fun pid thread => lowered pid (perm.mem_iff.mpr (List.mem_range.mpr thread))⟩

/-- The aggregated values are the number of centers that close and the gain of the move. -/
theorem aggregate_spec (threads : 0 < call.nproc) {mem : Memory 𝕂}
    (lowered : ∀ pid < call.nproc, call.Lowered pid mem) :
    call.aggregate mem = ((call.st.plan.closing call.z (call.st.points.price call.x)).card,
      call.st.plan.gain call.z (call.st.points.price call.x)) := by
  have split : ∀ n ≤ call.nproc, (List.range n).foldl (fun (acc : Nat × 𝕂) p =>
      (acc.1 + call.conv.toInt (mem.workMem (p * call.stride + call.K)),
        acc.2 + mem.workMem (p * call.stride + call.K + 1))) (0, call.z) =
      (∑ p ∈ Finset.range n, call.closeCount (call.block p),
        call.z + ∑ p ∈ Finset.range n,
          (call.switchCost (call.block p) + call.closeCost (call.block p))) := by
    intro n bound
    induction n with
    | zero => simp
    | succ n ih =>
      have last := lowered n (by omega)
      rw [List.range_succ, List.foldl_append, ih (by omega), List.foldl_cons, List.foldl_nil,
        last.count, last.cost, call.conv.toInt_cast, Finset.sum_range_succ,
        Finset.sum_range_succ, add_assoc call.z]
  have closing : call.st.plan.closing call.z (call.st.points.price call.x) =
      (Finset.range call.st.points.num).filter call.Closing := by
    ext i
    rw [Plan.closing, Finset.mem_filter, Clustering.mem_opened, Finset.mem_filter,
      Finset.mem_range, and_assoc]
    rfl
  rw [aggregate, split call.nproc le_rfl]
  apply Prod.ext
  · show ∑ p ∈ Finset.range call.nproc, call.closeCount (call.block p) = _
    unfold closeCount
    rw [sum_blocks threads, closing, Finset.card_filter]
  · show call.z + ∑ p ∈ Finset.range call.nproc, _ = _
    unfold switchCost closeCost Plan.gain
    rw [Finset.sum_add_distrib, sum_blocks threads, sum_blocks threads, closing,
      Finset.sum_filter, Finset.sum_filter, ← add_assoc, sub_eq_add_neg, ← Finset.sum_neg_distrib]
    congr 1
    apply Finset.sum_congr rfl
    intro i _
    split
    · rfl
    · exact neg_zero.symm

end Lower

section Commit

variable [LinearOrder 𝕂]

/-- The clustering after the move. -/
def moved : Clustering 𝕂 := call.st.move call.z call.x

variable {call} {pid : Nat}

/-- What the phases before have left for the last one. -/
structure Decided (call : Call 𝕂) (mem : Memory 𝕂) : Prop where
  /-- The clustering is valid. -/
  valid : call.st.Valid
  /-- There are threads. -/
  threads : 0 < call.nproc
  /-- The rows and the switches. -/
  summed : call.Summed mem
  /-- The common row. -/
  lowered : ∀ pid < call.nproc, call.Lowered pid mem

/-- The decision uses what the points of a center save. -/
theorem Decided.glLower {mem : Memory 𝕂} (decided : call.Decided mem) {i : Nat}
    (known : i < call.st.points.num) (center : call.st.isCenter i = true) :
    call.glLower mem (mem.centerTable i) = call.saving i := by
  obtain ⟨pid, thread, member⟩ := exists_block decided.threads known
  unfold Call.glLower
  rw [decided.summed.numbered.rank decided.threads center known]
  exact (decided.lowered pid thread).common i member center

/-- A clustering in which some blocks have been moved: the points behind the last one and all
coordinates are as before. -/
structure Between (call : Call 𝕂) (st : Clustering 𝕂) : Prop where
  /-- The number of points. -/
  num : st.points.num = call.st.points.num
  /-- The dimension. -/
  dim : st.points.dim = call.st.points.dim
  /-- The coordinates. -/
  coord : ∀ i, (st.points.p i).coord = (call.st.points.p i).coord
  /-- What lies behind the last point. -/
  outside : ∀ i, call.st.points.num ≤ i → st.points.p i = call.st.points.p i ∧
    st.isCenter i = call.st.isCenter i
  /-- The number of centers is changed at the end. -/
  numcenters : st.numcenters = call.st.numcenters

/-- No point moves. -/
theorem coord_moved (i : Nat) : (call.moved.points.p i).coord = (call.st.points.p i).coord := by
  unfold moved Clustering.move
  dsimp only
  split <;> rfl

/-- The body of the loop over the points of a block puts the moved point in place. -/
theorem reassign_eq {mem : Memory 𝕂} (decided : call.Decided mem) (points : Points 𝕂)
    (dim : points.dim = call.st.points.dim)
    (coord : ∀ i, (points.p i).coord = (call.st.points.p i).coord) {i : Nat}
    (known : i < call.st.points.num) (own : points.p i = call.st.points.p i) :
    call.reassign mem points i =
      { points with p := Function.update points.p i (call.moved.points.p i) } := by
  obtain ⟨served, center⟩ := assign_center decided.valid known
  have price : (call.st.points.p i).weight * dist (call.st.points.p i) (points.p call.x) points.dim
      = call.st.points.price call.x i := by
    rw [dim, Points.price, mul_comm]
    congr 1
    exact dist_congr (fun _ _ => rfl) fun k _ => congrFun (coord call.x) k
  unfold reassign
  rw [own, decided.glLower served center, decided.summed.switchMembership i known]
  have place := Clustering.p_move call.st call.z call.x known
  by_cases moves : call.st.plan.Moves call.z (call.st.points.price call.x) i
  · have condition : (decide (call.Switches i) ||
        decide (0 < call.saving (call.st.points.p i).assign)) = true := by
      rw [Bool.or_eq_true, decide_eq_true_iff, decide_eq_true_iff]
      exact moves
    rw [if_pos moves] at place
    dsimp only
    rw [if_pos condition, moved, place, price]
  · have condition : ¬(decide (call.Switches i) ||
        decide (0 < call.saving (call.st.points.p i).assign)) = true := by
      rw [Bool.or_eq_true, decide_eq_true_iff, decide_eq_true_iff]
      exact moves
    rw [if_neg moves] at place
    dsimp only
    rw [if_neg condition, moved, place, ← own, Function.update_eq_self]

/-- The loop over the points of a list. -/
theorem foldl_reassign {mem : Memory 𝕂} (decided : call.Decided mem) (list : List Nat)
    (nodup : list.Nodup) (known : ∀ i ∈ list, i < call.st.points.num) (points : Points 𝕂)
    (dim : points.dim = call.st.points.dim)
    (coord : ∀ i, (points.p i).coord = (call.st.points.p i).coord)
    (own : ∀ i ∈ list, points.p i = call.st.points.p i) :
    list.foldl (call.reassign mem) points =
      { points with p := fun i => if i ∈ list then call.moved.points.p i else points.p i } := by
  induction list generalizing points with
  | nil => simp
  | cons first list ih =>
    obtain ⟨fresh, nodup⟩ := List.nodup_cons.mp nodup
    rw [List.foldl_cons, reassign_eq decided points dim coord (known first List.mem_cons_self)
      (own first List.mem_cons_self)]
    have later := ih nodup (fun i member => known i (List.mem_cons_of_mem first member))
      { points with p := Function.update points.p first (call.moved.points.p first) } dim
      (by
        intro i
        by_cases here : i = first
        · subst here
          simp only [Function.update_self]
          exact coord_moved i
        · simp only [Function.update_of_ne here]
          exact coord i)
      (by
        intro i member
        have apart : i ≠ first := by
          rintro rfl
          exact fresh member
        simp only [Function.update_of_ne apart]
        exact own i (List.mem_cons_of_mem first member))
    rw [later]
    congr 1
    funext i
    by_cases here : i = first
    · subst here
      simp
    · simp [here]

/-- The body of the loop over the centers of a block. -/
theorem close_eq {mem : Memory 𝕂} (decided : call.Decided mem) (isCenter : Nat → Bool) {i : Nat}
    (known : i < call.st.points.num) (own : isCenter i = call.st.isCenter i) :
    call.close mem isCenter i =
      Function.update isCenter i (call.st.isCenter i && !decide (call.Closing i)) := by
  unfold close
  rw [own]
  cases center : call.st.isCenter i with
  | false =>
    have same := Function.update_eq_self i isCenter
    rw [own, center] at same
    simp [same]
  | true =>
    rw [decided.glLower known center]
    by_cases positive : 0 < call.saving i
    · have closing : call.Closing i := ⟨center, positive⟩
      simp [positive, closing]
    · have stays : ¬call.Closing i := fun closing => positive closing.2
      have same := Function.update_eq_self i isCenter
      rw [own, center] at same
      simp [positive, stays, same]

/-- The loop over the centers of a list. -/
theorem foldl_close {mem : Memory 𝕂} (decided : call.Decided mem) (list : List Nat)
    (nodup : list.Nodup) (known : ∀ i ∈ list, i < call.st.points.num) (isCenter : Nat → Bool)
    (own : ∀ i ∈ list, isCenter i = call.st.isCenter i) (i : Nat) :
    list.foldl (call.close mem) isCenter i =
      if i ∈ list then call.st.isCenter i && !decide (call.Closing i) else isCenter i := by
  induction list generalizing isCenter with
  | nil => simp
  | cons first list ih =>
    obtain ⟨fresh, nodup⟩ := List.nodup_cons.mp nodup
    rw [List.foldl_cons, close_eq decided isCenter (known first List.mem_cons_self)
      (own first List.mem_cons_self), ih nodup
      (fun i member => known i (List.mem_cons_of_mem first member)) _
      (by
        intro i member
        have apart : i ≠ first := by
          rintro rfl
          exact fresh member
        rw [Function.update_of_ne apart]
        exact own i (List.mem_cons_of_mem first member))]
    by_cases here : i = first
    · subst here
      simp [fresh]
    · simp [here]

variable (call pid) in
/-- The points and centers of a block are as in a clustering. -/
def BlockOf (of st : Clustering 𝕂) : Prop :=
  ∀ i ∈ call.block pid, st.points.p i = of.points.p i ∧ st.isCenter i = of.isCenter i

/-- The last phase of one thread makes the move in its block. -/
theorem commit_spec {mem : Memory 𝕂} (decided : call.Decided mem) (thread : pid < call.nproc)
    {st : Clustering 𝕂} (between : call.Between st) (before : call.BlockOf pid call.st st) :
    call.Between (call.commit mem st pid) ∧
    call.BlockOf pid call.moved (call.commit mem st pid) ∧
    ∀ i ∉ call.block pid, (call.commit mem st pid).points.p i = st.points.p i ∧
      (call.commit mem st pid).isCenter i = st.isCenter i := by
  have known : ∀ i ∈ call.block pid, i < call.st.points.num :=
    fun i member => block_lt member thread
  have points := foldl_reassign decided (call.block pid) block_nodup known st.points between.dim
    between.coord fun i member => (before i member).1
  have marks := foldl_close decided (call.block pid) block_nodup known st.isCenter
    fun i member => (before i member).2
  have place : ∀ i, (call.commit mem st pid).points.p i =
      if i ∈ call.block pid then call.moved.points.p i else st.points.p i := by
    intro i
    unfold commit
    dsimp only
    rw [points]
  have mark : ∀ i, (call.commit mem st pid).isCenter i =
      if i ∈ call.block pid then call.moved.isCenter i else st.isCenter i := by
    intro i
    have opens : call.k1 pid ≤ call.x ∧ call.x < call.k2 pid ↔ call.x ∈ call.block pid :=
      mem_block.symm
    have value : i ∈ call.block pid → call.moved.isCenter i =
        (i == call.x || call.st.isCenter i && !decide (call.Closing i)) := by
      intro member
      unfold moved Clustering.move
      dsimp only
      rw [if_pos (known i member)]
      cases center : call.st.isCenter i <;> simp [Closing, center]
    unfold commit
    dsimp only
    by_cases inBlock : call.x ∈ call.block pid
    · rw [if_pos (opens.mpr inBlock)]
      by_cases here : i = call.x
      · rw [here] at value ⊢
        rw [Function.update_self, if_pos inBlock, value inBlock]
        simp
      · rw [Function.update_of_ne here, marks]
        split
        · rename_i member
          rw [value member]
          simp [here]
        · rfl
    · rw [if_neg fun both => inBlock (opens.mp both), marks]
      split
      · rename_i member
        have here : i ≠ call.x := by
          rintro rfl
          exact inBlock member
        rw [value member]
        simp [here]
      · rfl
  have shape : (call.commit mem st pid).points.num = st.points.num ∧
      (call.commit mem st pid).points.dim = st.points.dim := by
    unfold commit
    dsimp only
    rw [points]
    exact ⟨rfl, rfl⟩
  refine ⟨⟨?_, ?_, ?_, ?_, between.numcenters⟩, ?_, ?_⟩
  · exact shape.1.trans between.num
  · exact shape.2.trans between.dim
  · intro i
    rw [place]
    split
    · exact coord_moved i
    · exact between.coord i
  · intro i out
    have away : i ∉ call.block pid := fun member => absurd (known i member) (by omega)
    rw [place, mark, if_neg away, if_neg away]
    exact between.outside i out
  · intro i member
    rw [place, mark, if_pos member, if_pos member]
    exact ⟨rfl, rfl⟩
  · intro i away
    rw [place, mark, if_neg away, if_neg away]
    exact ⟨rfl, rfl⟩

/-- In whatever order the threads make the move in their blocks, the whole move is made. -/
theorem foldl_commit {mem : Memory 𝕂} (decided : call.Decided mem) {order : List Nat}
    (perm : order.Perm (List.range call.nproc)) :
    { order.foldl (call.commit mem) call.st with
      numcenters := (order.foldl (call.commit mem) call.st).numcenters + 1 -
        (call.st.plan.closing call.z (call.st.points.price call.x)).card } = call.moved := by
  have inside : ∀ pid ∈ order, pid < call.nproc :=
    fun pid member => List.mem_range.mp (perm.mem_iff.mp member)
  have keeps : ∀ of st : Clustering 𝕂, ∀ pid ∈ order, ∀ other ∈ order, other ≠ pid →
      call.Between st → call.BlockOf pid call.st st → call.BlockOf other of st →
      call.BlockOf other of (call.commit mem st pid) := by
    intro of st pid member other member' apart between before block i own
    obtain ⟨-, -, others⟩ := commit_spec decided (inside pid member) between before
    have away : i ∉ call.block pid := fun theirs =>
      apart (block_unique own theirs (inside other member') (inside pid member))
    rw [(others i away).1, (others i away).2]
    exact block i own
  obtain ⟨between, moved⟩ := foldl_forEach (call.commit mem) call.Between
    (fun pid => call.BlockOf pid call.st) (fun pid => call.BlockOf pid call.moved) order
    (perm.nodup_iff.mpr List.nodup_range)
    (by
      intro st pid member between before
      obtain ⟨kept, done, -⟩ := commit_spec decided (inside pid member) between before
      exact ⟨kept, done⟩)
    (fun st pid member other member' apart between before => keeps call.st st pid member other
      member' apart between before)
    (fun st pid member other member' apart between before => keeps call.moved st pid member other
      member' apart between before)
    call.st ⟨rfl, rfl, fun _ => rfl, fun _ _ => ⟨rfl, rfl⟩, rfl⟩
    (fun pid _ i _ => ⟨rfl, rfl⟩)
  have all : ∀ i, (order.foldl (call.commit mem) call.st).points.p i = call.moved.points.p i ∧
      (order.foldl (call.commit mem) call.st).isCenter i = call.moved.isCenter i := by
    intro i
    rcases Nat.lt_or_ge i call.st.points.num with known | out
    · obtain ⟨pid, thread, member⟩ := exists_block decided.threads known
      exact moved pid (perm.mem_iff.mpr (List.mem_range.mpr thread)) i member
    · rw [(between.outside i out).1, (between.outside i out).2]
      have behind : ¬i < call.st.points.num := by omega
      simp [Call.moved, Clustering.move, behind]
  have points : (order.foldl (call.commit mem) call.st).points = call.moved.points := by
    have num := between.num
    have dim := between.dim
    have p := funext fun i => (all i).1
    cases shape : (order.foldl (call.commit mem) call.st).points
    rw [shape] at num dim p
    dsimp only at num dim p
    subst num dim p
    rfl
  have marks : (order.foldl (call.commit mem) call.st).isCenter = call.moved.isCenter :=
    funext fun i => (all i).2
  dsimp only
  rw [points, marks, between.numcenters]
  rfl

end Commit

section Main

variable [LinearOrder 𝕂] {call}

/-- What the two versions have in common: the computed value is the gain, and the move is made
exactly when it is negative. -/
theorem finish_spec (valid : call.st.Valid) (threads : 0 < call.nproc)
    (sched : Schedule call.nproc) {mem : Memory 𝕂} (ready : call.Ready mem) :
    let gain := call.st.plan.gain call.z (call.st.points.price call.x)
    call.finish sched mem = ⟨if gain < 0 then call.moved else call.st, gain,
      if gain < 0 then -gain else 0⟩ := by
  obtain ⟨numbered, gained⟩ := foldl_gainLoop valid (sched.perm .gain) ready
  have summed : call.Summed ((sched.order .gain).foldl call.gainLoop mem) := by
    have wide := call.stride_ge
    refine ⟨numbered, ?_, ?_⟩
    · intro i known
      obtain ⟨pid, thread, member⟩ := exists_block threads known
      exact (gained pid thread).switchMembership i member
    · intro row thread k column
      exact (gained row thread).workMem k (by omega)
  obtain ⟨kept, lowered⟩ := foldl_lowerLoop valid (sched.perm .lower) summed
    fun pid thread => (gained pid thread).costOfOpeningX
  have decided : call.Decided ((sched.order .lower).foldl call.lowerLoop
      ((sched.order .gain).foldl call.gainLoop mem)) := ⟨valid, threads, kept, lowered⟩
  dsimp only
  unfold finish
  dsimp only
  rw [aggregate_spec threads lowered]
  dsimp only
  split
  · rw [foldl_commit decided (sched.perm .commit)]
  · rw [neg_zero]

/-- The rest of `pgain` starts from there. -/
theorem pgain_eq_finish {version : Version} {sched : Schedule call.nproc} {mem : Memory 𝕂} :
    call.pgain version sched mem = call.finish sched (call.tabulate version sched mem) := by
  cases version <;> rfl

/-- The outcome of both versions. -/
theorem pgain_eq (valid : call.st.Valid) (threads : 0 < call.nproc) (version : Version)
    (sched : Schedule call.nproc) (mem : Memory 𝕂) :
    let gain := call.st.plan.gain call.z (call.st.points.price call.x)
    call.pgain version sched mem = ⟨if gain < 0 then call.moved else call.st, gain,
      if gain < 0 then -gain else 0⟩ := by
  intro gain
  rw [pgain_eq_finish]
  exact finish_spec valid threads sched tabulate_ready

end Main

end Call

/-- `pgain` for every number of threads, every order of the threads in each phase and any content
of the memory. The computed value is the change of the total cost in the move to `x`; the move is
made exactly when the value is negative, and otherwise nothing changes; the value returned is what
is saved; and the clustering is valid again. -/
theorem pgain_correct [LinearOrder 𝕂] [IsStrictOrderedRing 𝕂] (call : Call 𝕂)
    (threads : 0 < call.nproc) (positive : 0 < call.z) (known : call.x < call.st.points.num)
    (weighted : call.st.points.Weighted) (valid : call.st.Valid) (version : Call.Version)
    (sched : Schedule call.nproc) (mem : Memory 𝕂) :
    let outcome := call.pgain version sched mem
    let move := call.st.move call.z call.x
    outcome.glCostOfOpeningX = move.total call.z - call.st.total call.z ∧
    (outcome.st = if outcome.glCostOfOpeningX < 0 then move else call.st) ∧
    (outcome.returned = if outcome.glCostOfOpeningX < 0 then -outcome.glCostOfOpeningX else 0) ∧
    outcome.st.Valid := by
  intro outcome move
  have same : outcome = _ := Call.pgain_eq valid threads version sched mem
  have change := valid.total_move weighted positive known
  rw [same]
  refine ⟨change.symm, rfl, rfl, ?_⟩
  show (if _ then call.moved else call.st).Valid
  split
  · exact valid.move weighted positive known
  · exact valid

section Sample

/-- Whole numbers among the rationals. -/
def floorConversion : Conversion ℚ := ⟨fun value => ⌊value⌋₊, fun n => Nat.floor_natCast n⟩

/-- Points at 0, 3 and 4 on a line, all assigned to the first one. -/
def lineClustering : Clustering ℚ where
  points := ⟨3, 1, fun i =>
    match i with
    | 0 => ⟨1, fun _ => 0, 0, 0⟩
    | 1 => ⟨1, fun _ => 3, 0, 9⟩
    | _ => ⟨1, fun _ => 4, 0, 16⟩⟩
  isCenter i := i == 0
  numcenters := 1

/-- Opening the last point with two threads. -/
def lineCall : Call ℚ := ⟨2, 1, lineClustering, 2, floorConversion⟩

/-- The second thread always comes first. -/
def secondFirst : Schedule lineCall.nproc := ⟨fun _ => [1, 0], fun _ => by decide⟩

/-- The clustering of the sample is valid. -/
theorem lineClustering_valid : lineClustering.Valid := by
  refine ⟨⟨by decide, by decide, by decide +kernel, by decide, by decide +kernel⟩, by decide⟩

/-- A call for the clustering of the sample. -/
theorem pgain_correct_sample :
    let outcome := lineCall.pgain .ff secondFirst ⟨id, fun _ => true, fun _ => 7, fun _ => 5, id⟩
    let move := lineCall.st.move lineCall.z lineCall.x
    outcome.glCostOfOpeningX = move.total lineCall.z - lineCall.st.total lineCall.z ∧
    (outcome.st = if outcome.glCostOfOpeningX < 0 then move else lineCall.st) ∧
    (outcome.returned =
      if outcome.glCostOfOpeningX < 0 then -outcome.glCostOfOpeningX else 0) ∧
    outcome.st.Valid :=
  pgain_correct lineCall (by decide) (by decide +kernel) (by decide)
    (by unfold Points.Weighted; decide +kernel) lineClustering_valid .ff secondFirst _

end Sample

end P3arsec.Streamcluster
