import P3arsec.Fastflow.ParallelForHanded
import P3arsec.Fastflow.ParallelForParts

/-!
# The first tasks of a parallel loop

A round of `sendTask` moves a chunk of every part to its worker. So the workers, or the emitter,
start with every index in one place.
-/

namespace P3arsec.Fastflow

open P3arsec.Lib.Concurrent

/-- Tasks are dealt out of the parts of a scheduler. -/
structure Dealt (whole : Multiset Int) (s s' : ForallScheduler) (sent : List Task) : Prop where
  /-- Only the parts change. -/
  same : s' = { s with data := s'.data }
  laid : ∃ rest, Task.run s.step sent + rest = whole ∧ LaidOut rest s'
  workers : ∀ task ∈ sent, task.worker < s.nw
  nonneg : ∀ id < s.nw, 0 ≤ (s'.data id).ntask
  count : ∑ id ∈ Finset.range s.nw, (s'.data id).ntask + sent.length =
    ∑ id ∈ Finset.range s.nw, (s.data id).ntask

namespace Dealt

variable {whole : Multiset Int} {s s' s'' : ForallScheduler} {sent sent' : List Task}

/-- No task is dealt. -/
theorem none (laid : LaidOut whole s) (nonneg : ∀ id < s.nw, 0 ≤ (s.data id).ntask) :
    Dealt whole s s [] where
  same := rfl
  laid := ⟨whole, by simp [Task.run], laid⟩
  workers := by simp
  nonneg := nonneg
  count := by simp

/-- What does not change. -/
theorem kept (dealt : Dealt whole s s' sent) : s'.step = s.step ∧ s'.nw = s.nw ∧
    s'.chunk = s.chunk ∧ s'.size = s.size ∧ s'.totaltasks = s.totaltasks := by
  rw [dealt.same]
  exact ⟨rfl, rfl, rfl, rfl, rfl⟩

/-- Tasks are dealt one after another. -/
theorem trans (dealt : Dealt whole s s' sent)
    (more : ∀ rest, LaidOut rest s' → Dealt rest s' s'' sent') :
    Dealt whole s s'' (sent ++ sent') := by
  obtain ⟨rest, total, laid⟩ := dealt.laid
  have next := more rest laid
  obtain ⟨rest', total', laid'⟩ := next.laid
  obtain ⟨step_eq, nw_eq, -⟩ := dealt.kept
  refine {
    same := ?_
    laid := ⟨rest', ?_, laid'⟩
    workers := fun task inside => ?_
    nonneg := fun id below => next.nonneg id (by omega)
    count := ?_ }
  · rw [next.same, dealt.same]
  · rw [Sound.run_append, add_assoc, ← step_eq, total', step_eq, total]
  · rcases List.mem_append.mp inside with first | second
    · exact dealt.workers task first
    · rw [← nw_eq]
      exact next.workers task second
  · have count := next.count
    rw [nw_eq] at count
    rw [List.length_append, ← dealt.count, ← count]
    push_cast
    ring

/-- One turn of `sendTask`. -/
theorem sendOne (laid : LaidOut whole s) (nonneg : ∀ id < s.nw, 0 ≤ (s.data id).ntask) {wid : Nat}
    (inside : wid < s.nw) :
    Dealt whole s (ForallScheduler.sendOne wid s).2 (ForallScheduler.sendOne wid s).1 := by
  obtain ⟨rest, total, laid', -, -⟩ := laid.sendOne inside
  have split : 0 < (s.data wid).ntask ∨ ForallScheduler.sendOne wid s = ([], s) := by
    unfold ForallScheduler.sendOne
    split_ifs with some_left
    · exact .inl some_left
    · exact .inr rfl
  rcases split with some_left | eq
  · unfold ForallScheduler.sendOne at total laid' ⊢
    rw [if_pos some_left] at total laid' ⊢
    refine {
      same := rfl
      laid := ⟨rest, total, laid'⟩
      workers := fun task member => ?_
      nonneg := fun id below => ?_
      count := ?_ }
    · rw [List.mem_singleton.mp member]
      exact inside
    · dsimp only
      by_cases eq : id = wid
      · subst eq
        rw [Function.update_self]
        show 0 ≤ (s.data id).ntask - 1
        omega
      · rw [Function.update_of_ne eq]
        exact nonneg id below
    · obtain ⟨others, before, behind⟩ := exists_sum_update Part.ntask s.data inside
      dsimp only
      rw [before, behind, List.length_singleton]
      push_cast
      ring
  · rw [eq]
    exact .none laid nonneg

/-- The first turns of `sendTask`. -/
theorem turns (laid : LaidOut whole s) (nonneg : ∀ id < s.nw, 0 ≤ (s.data id).ntask) {n : Nat}
    (reach : n ≤ s.nw) {sent : List Task × ForallScheduler}
    (eq : sent = (List.range n).foldl (fun sent wid =>
      (sent.1 ++ (ForallScheduler.sendOne wid sent.2).1,
        (ForallScheduler.sendOne wid sent.2).2)) ([], s)) :
    Dealt whole s sent.2 sent.1 ∧ (∀ id, n ≤ id → sent.2.data id = s.data id) ∧
      ∀ wid < n, 0 < (s.data wid).ntask → ∃ task ∈ sent.1, task.worker = wid := by
  induction n generalizing sent with
  | zero =>
    rw [eq]
    exact ⟨.none laid nonneg, fun _ _ => rfl, by omega⟩
  | succ n ih =>
    rw [List.range_succ, List.foldl_append, List.foldl_cons, List.foldl_nil] at eq
    obtain ⟨dealt, frame, given⟩ := ih (by omega) rfl
    generalize (List.range n).foldl _ _ = sent' at *
    obtain ⟨-, nw_eq, -⟩ := dealt.kept
    have next := dealt.trans fun rest laid' => sendOne laid'
      (fun id below => dealt.nonneg id (by omega)) (show n < _ by omega)
    rw [eq]
    refine ⟨next, fun id above => ?_, fun wid below some_left => ?_⟩
    · rw [← frame id (by omega)]
      dsimp only
      unfold ForallScheduler.sendOne
      split_ifs
      · exact Function.update_of_ne (by omega) _ _
      · rfl
    · rcases Nat.lt_succ_iff_lt_or_eq.mp below with earlier | rfl
      · obtain ⟨task, member, worker⟩ := given wid earlier some_left
        exact ⟨task, List.mem_append_left _ member, worker⟩
      · rw [← frame wid le_rfl] at some_left
        unfold ForallScheduler.sendOne
        dsimp only
        rw [if_pos some_left]
        exact ⟨_, List.mem_append_right _ (List.mem_singleton_self _), rfl⟩

/-- A round of `sendTask`. -/
theorem sendTask (laid : LaidOut whole s) (nonneg : ∀ id < s.nw, 0 ≤ (s.data id).ntask) :
    Dealt whole s s.sendTask.2 s.sendTask.1 :=
  (turns laid nonneg le_rfl rfl).1

/-- A second round, or none. -/
theorem sendTwice (laid : LaidOut whole s) (nonneg : ∀ id < s.nw, 0 ≤ (s.data id).ntask) :
    Dealt whole s s.sendTwice.2 s.sendTwice.1 := by
  have once := sendTask laid nonneg
  obtain ⟨-, nw_eq, -⟩ := once.kept
  unfold ForallScheduler.sendTwice
  split_ifs
  · exact once.trans fun rest laid' => sendTask laid' fun id below => once.nonneg id (by omega)
  · exact once

/-- The rounds before the emitter starts. -/
theorem sendFirst (laid : LaidOut whole s) (nonneg : ∀ id < s.nw, 0 ≤ (s.data id).ntask)
    (spinwait : Bool) : Dealt whole s (s.sendFirst spinwait).2 (s.sendFirst spinwait).1 := by
  have once := sendTask laid nonneg
  obtain ⟨-, nw_eq, -⟩ := once.kept
  unfold ForallScheduler.sendFirst
  split_ifs
  · exact once.trans fun rest laid' => sendTwice laid' fun id below => once.nonneg id (by omega)
  · exact sendTwice laid nonneg

/-- Every worker gets a task before the emitter starts. -/
theorem given (laid : LaidOut whole s) (full : Full s) (spinwait : Bool) {wid : Nat}
    (inside : wid < s.nw) : ∃ task ∈ (s.sendFirst spinwait).1, task.worker = wid := by
  have each := full.each wid inside
  obtain ⟨task, member, worker⟩ := (turns laid (fun id below => by
    have := full.each id below
    omega) le_rfl rfl).2.2 wid inside (by omega)
  have twice : task ∈ s.sendTwice.1 := by
    unfold ForallScheduler.sendTwice
    split_ifs
    · exact List.mem_append_left _ member
    · exact member
  refine ⟨task, ?_, worker⟩
  unfold ForallScheduler.sendFirst
  split_ifs
  · exact List.mem_append_left _ member
  · exact twice

end Dealt

end P3arsec.Fastflow
