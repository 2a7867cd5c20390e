import P3arsec.Vips.Threadpool

/-!
# The creation of the threads of a pool

The array of threads is filled with `NULL` and then with one new thread after another. When a thread
cannot be made the pool is cleaned up by the function that junks all threads, which runs over the
whole array. It reads the fields of each thread, also of those that were never made: after the
threads before the failure it reads through the `NULL` of the failed one (`createThreads_faults`).
When all threads are made, junking them works and can be repeated (`free_twice`).
-/

namespace P3arsec.Vips.CreateThreads

/-- What the system answers when a thread is made. -/
structure Answer where
  /-- There is memory for the `VipsThread`. -/
  memory : Bool
  /-- `g_thread_create_full` makes a thread. -/
  thread : Bool
  /-- The thread builds its state before it is junked. -/
  state : Bool
  deriving DecidableEq, Repr

/-- The thread cannot be made. The farm makes no thread of the thread library. -/
def Answer.fails (version : Version) (answer : Answer) : Bool :=
  !answer.memory || (version == .pthreads && !answer.thread)

/-- `VipsThread`. -/
structure VipsThread where
  /-- `pool` is not `NULL`. -/
  pool : Bool
  /-- `state` is not `NULL`. -/
  state : Bool
  /-- `thread` is not `NULL`. -/
  thread : Bool
  /-- `exit`. -/
  exit : Bool
  /-- `error`. -/
  error : Bool
  deriving DecidableEq, Repr

/-- `VipsThreadpool` with its threads and a record of what was done to them. -/
structure VipsThreadpool where
  /-- `nthr`. -/
  nthr : Nat
  /-- `thr`, an array of pointers to threads when it is not `NULL`. -/
  thr : Option (Nat → Option Nat)
  /-- `allocate_lock` is not `NULL`. -/
  allocateLock : Bool
  /-- The number of `VipsThread`s that were made. -/
  made : Nat
  /-- The `VipsThread`s that were made. -/
  threads : Nat → VipsThread
  /-- The entries of `thr` that were read to junk their threads. -/
  read : List Nat
  /-- The threads that were joined. -/
  joined : List Nat
  /-- The threads whose state was given back. -/
  unrefs : List Nat
  /-- The threads that `vips_thread_free` has junked. -/
  freed : List Nat

/-- A function that reads through `NULL` stops with the pool as it is then. -/
abbrev Run (α : Type) := Except VipsThreadpool α

/-- The fields of a new `VipsThread`. -/
def VipsThread.new : VipsThread :=
  { pool := true, state := false, thread := false, exit := false, error := false }

namespace VipsThreadpool

/-- The pool that `vips_threadpool_new` makes. -/
def new (nthr : Nat) : VipsThreadpool where
  nthr := nthr
  thr := none
  allocateLock := true
  made := 0
  threads _ := .new
  read := []
  joined := []
  unrefs := []
  freed := []

/-- A thread is joined, where it runs, and gives its state back. It leaves its loop before it is
joined. -/
def junk (version : Version) (place : Nat) (pool : VipsThreadpool) : VipsThreadpool :=
  let thread := pool.threads place
  let joins := version == .pthreads && thread.thread
  { pool with
    threads := Function.update pool.threads place
      { thread with
        pool := false, state := false
        thread := thread.thread && !joins, exit := thread.exit || joins }
    joined := if joins then pool.joined ++ [place] else pool.joined
    unrefs := if thread.state then pool.unrefs ++ [place] else pool.unrefs
    freed := pool.freed ++ [place] }

/-- `vips_thread_free`. It reads the fields of the thread without a test for `NULL`. -/
def vipsThreadFree (version : Version) (thr : Option Nat) (pool : VipsThreadpool) :
    Run VipsThreadpool :=
  match thr with
  | none => .error pool
  | some place => .ok (pool.junk version place)

/-- A `VipsThread` is made and its fields are set. -/
def allocate (thread : VipsThread) (pool : VipsThreadpool) : VipsThreadpool :=
  { pool with made := pool.made + 1, threads := Function.update pool.threads pool.made thread }

/-- `vips_thread_new`. In the farm no thread runs yet, so that no state is built. -/
def vipsThreadNew (version : Version) (answer : Answer) (pool : VipsThreadpool) :
    Run (Option Nat × VipsThreadpool) :=
  if answer.memory then
    match version with
    | .fastFlow => .ok (some pool.made, pool.allocate .new)
    | .pthreads =>
      if answer.thread then
        .ok (some pool.made, pool.allocate { VipsThread.new with
          thread := true, state := answer.state })
      else do
        let next ← vipsThreadFree version (some pool.made) (pool.allocate .new)
        return (none, next)
  else
    .ok (none, pool)

/-- One round of the loop that junks the threads. -/
def killRound (version : Version) (thr : Nat → Option Nat) (pool : VipsThreadpool) (i : Nat) :
    Run VipsThreadpool :=
  vipsThreadFree version (thr i) { pool with read := pool.read ++ [i] }

/-- `vips_threadpool_kill_threads`. -/
def killThreads (version : Version) (pool : VipsThreadpool) : Run VipsThreadpool :=
  match pool.thr with
  | none => .ok pool
  | some thr => do
    let pool ← (List.range pool.nthr).foldlM (killRound version thr) pool
    return { pool with thr := none }

/-- `vips_threadpool_free`. -/
def free (version : Version) (pool : VipsThreadpool) : Run VipsThreadpool := do
  let pool ← killThreads version pool
  return { pool with allocateLock := false }

/-- `pool->thr[i]` is set. -/
def fill (i : Nat) (thread : Option Nat) (pool : VipsThreadpool) : VipsThreadpool :=
  { pool with thr := pool.thr.map fun thr => Function.update thr i thread }

/-- The loop that makes the threads. -/
def createLoop (version : Version) (answers : Nat → Answer) :
    List Nat → VipsThreadpool → Run (Int × VipsThreadpool)
  | [], pool => .ok (0, pool)
  | i :: rest, pool => do
    let (thread, pool) ← vipsThreadNew version (answers i) pool
    let pool := pool.fill i thread
    match thread with
    | some _ => createLoop version answers rest pool
    | none => do
      let pool ← killThreads version pool
      return (-1, pool)

/-- `vips_threadpool_create_threads`; `array` says whether there is memory for the array. -/
def createThreads (version : Version) (array : Bool) (answers : Nat → Answer)
    (pool : VipsThreadpool) : Run (Int × VipsThreadpool) :=
  if array then
    createLoop version answers (List.range pool.nthr) { pool with thr := some fun _ => none }
  else
    .ok (-1, pool)

/-- The creation of thread `i` has failed and is cleaned up after: -1 is returned, of the other
threads exactly those before `i` were junked, and joined where they run, only their entries were
read, and the pool can be freed without junking a thread again. -/
def CleansUp (version : Version) (i : Nat) (run : Run (Int × VipsThreadpool)) : Prop :=
  ∃ pool, run = .ok (-1, pool) ∧
    (∀ j, j ≠ i → pool.freed.count j = if j < i then 1 else 0) ∧
    (version = .pthreads → pool.joined = List.range i) ∧
    (∀ j ∈ pool.read, j < i) ∧
    ∃ last, free version pool = .ok last ∧ last.freed = pool.freed

/-- The first `k` threads are made and nothing was junked. -/
structure Filled (version : Version) (nthr k : Nat) (pool : VipsThreadpool) : Prop where
  nthr_eq : pool.nthr = nthr
  made_eq : pool.made = k
  /-- The entries of the array point to the threads. -/
  filled : ∃ thr, pool.thr = some thr ∧ ∀ j < k, thr j = some j
  /-- With the thread library each of them runs. -/
  running : version = .pthreads → ∀ j < k, (pool.threads j).thread = true
  read_eq : pool.read = []
  joined_eq : pool.joined = []
  freed_eq : pool.freed = []

/-- The first `k` threads were junked, one after another. -/
structure Killed (version : Version) (k : Nat) (pool next : VipsThreadpool) : Prop where
  nthr_eq : next.nthr = pool.nthr
  read_eq : next.read = pool.read ++ List.range k
  freed_eq : next.freed = pool.freed ++ List.range k
  /-- Where the threads run they were joined. -/
  joined_eq : version = .pthreads → next.joined = pool.joined ++ List.range k
  /-- The other threads are as they were. -/
  rest : ∀ j, k ≤ j → next.threads j = pool.threads j

variable {version : Version} {nthr k i : Nat} {pool next : VipsThreadpool} {answers : Nat → Answer}
  {thr : Nat → Option Nat}

/-- A thread of the array is junked. -/
theorem Killed.junked (killed : Killed version k pool next) (here : thr k = some k)
    (running : version = .pthreads → (pool.threads k).thread = true) :
    ∃ last, killRound version thr next k = .ok last ∧ Killed version (k + 1) pool last := by
  have same := killed.rest k le_rfl
  refine ⟨_, by rw [killRound, here]; rfl, ?_, ?_, ?_, ?_, ?_⟩
  · exact killed.nthr_eq
  · simp [junk, killed.read_eq, List.range_succ]
  · simp [junk, killed.freed_eq, List.range_succ]
  · intro runs
    simp [junk, runs, same, running runs, killed.joined_eq runs, List.range_succ]
  · intro j above
    have other : j ≠ k := by omega
    simp [junk, other, killed.rest j (by omega)]

/-- Threads that are in the array are junked without reading through `NULL`. -/
theorem kill_range (here : ∀ j < k, thr j = some j)
    (running : version = .pthreads → ∀ j < k, (pool.threads j).thread = true) :
    ∃ last, (List.range k).foldlM (killRound version thr) pool = .ok last ∧
      Killed version k pool last := by
  induction k with
  | zero => exact ⟨pool, rfl, rfl, by simp, by simp, by simp, by simp⟩
  | succ k ih =>
    obtain ⟨next, kills, killed⟩ := ih (fun j below => here j (by omega))
      fun runs j below => running runs j (by omega)
    obtain ⟨last, round, done⟩ := killed.junked (here k (by omega))
      fun runs => running runs k (by omega)
    refine ⟨last, ?_, done⟩
    rw [List.range_succ, List.foldlM_append, kills]
    simp only [List.foldlM_cons, List.foldlM_nil, bind, Except.bind, round]
    rfl

/-- Junking the threads reads through the first `NULL` of the array, when there is one. -/
theorem killThreads_error (filled : pool.thr = some thr) (inside : i < pool.nthr)
    (here : ∀ j < i, thr j = some j)
    (running : version = .pthreads → ∀ j < i, (pool.threads j).thread = true)
    (null : thr i = none) :
    ∃ last stopped, killThreads version pool = .error stopped ∧ Killed version i pool last ∧
      stopped = { last with read := last.read ++ [i] } := by
  obtain ⟨last, kills, killed⟩ := kill_range here running
  refine ⟨last, _, ?_, killed, rfl⟩
  obtain ⟨rest, split⟩ : ∃ rest, List.range pool.nthr = List.range i ++ i :: rest := by
    obtain ⟨r, total⟩ := Nat.exists_eq_add_of_lt inside
    refine ⟨(List.range r).map (i + 1 + ·), ?_⟩
    rw [total, show i + r + 1 = i + 1 + r by omega, List.range_add, List.range_succ]
    simp
  have round : killRound version thr last i = .error { last with read := last.read ++ [i] } := by
    rw [killRound, null]
    rfl
  simp only [killThreads, filled]
  rw [split, List.foldlM_append, kills]
  simp only [List.foldlM_cons, round, bind, Except.bind]

/-- A new thread is put in the array. -/
theorem Filled.filled_next (filled : Filled version nthr k pool)
    (made : (answers k).fails version = false) :
    ∃ next, vipsThreadNew version (answers k) pool = .ok (some k, next) ∧
      Filled version nthr (k + 1) (next.fill k (some k)) := by
  obtain ⟨thr, here, entries⟩ := filled.filled
  have entered : ∀ j < k + 1, Function.update thr k (some k) j = some j := by
    intro j below
    rcases eq_or_ne j k with rfl | other
    · simp
    · rw [Function.update_of_ne other]
      exact entries j (by omega)
  cases version with
  | fastFlow =>
    have memory : (answers k).memory = true := by simpa [Answer.fails] using made
    refine ⟨pool.allocate .new, ?_, filled.nthr_eq, ?_, ⟨_, ?_, entered⟩, ?_, filled.read_eq,
      filled.joined_eq, filled.freed_eq⟩
    · simp [vipsThreadNew, memory, filled.made_eq]
    · simp [fill, allocate, filled.made_eq]
    · simp [fill, allocate, here]
    · intro runs
      cases runs
  | pthreads =>
    obtain ⟨memory, thread⟩ : (answers k).memory = true ∧ (answers k).thread = true := by
      simpa [Answer.fails] using made
    refine ⟨pool.allocate { VipsThread.new with thread := true, state := (answers k).state }, ?_,
      filled.nthr_eq, ?_, ⟨_, ?_, entered⟩, ?_, filled.read_eq, filled.joined_eq,
      filled.freed_eq⟩
    · simp [vipsThreadNew, memory, thread, filled.made_eq]
    · simp [fill, allocate, filled.made_eq]
    · simp [fill, allocate, here]
    · intro runs j below
      rcases eq_or_ne j k with rfl | other
      · simp [fill, allocate, filled.made_eq]
      · simp only [fill, allocate, filled.made_eq, Function.update_of_ne other]
        exact filled.running runs j (by omega)

/-- A thread cannot be made. When only the thread of the thread library is missing, the `VipsThread`
is junked. -/
theorem Filled.new_fails (filled : Filled version nthr k pool)
    (failed : (answers k).fails version = true) :
    ∃ next, vipsThreadNew version (answers k) pool = .ok (none, next) ∧
      next.nthr = nthr ∧ next.thr = pool.thr ∧
      (∀ j < k, next.threads j = pool.threads j) ∧ next.read = [] ∧ next.joined = [] ∧
      next.freed = if (answers k).memory then [k] else [] := by
  cases memory : (answers k).memory with
  | false =>
    refine ⟨pool, ?_, filled.nthr_eq, rfl, fun _ _ => rfl, filled.read_eq, filled.joined_eq,
      filled.freed_eq⟩
    simp [vipsThreadNew, memory]
  | true =>
    obtain ⟨rfl, thread⟩ : version = .pthreads ∧ (answers k).thread = false := by
      simpa [Answer.fails, memory] using failed
    refine ⟨(pool.allocate .new).junk .pthreads pool.made, ?_, filled.nthr_eq, rfl, ?_,
      filled.read_eq, ?_, ?_⟩
    · simp only [vipsThreadNew, memory, thread, vipsThreadFree]
      rfl
    · intro j below
      have other : j ≠ k := by omega
      simp [junk, allocate, filled.made_eq, other]
    · simp [junk, allocate, VipsThread.new, filled.joined_eq]
    · simp [junk, allocate, filled.made_eq, filled.freed_eq]

/-- How the creation stops when thread `i` cannot be made: the threads before `i` were junked, and
joined where they run, and entry `i` of the array was read. -/
structure Stopped (version : Version) (answers : Nat → Answer) (i : Nat) (pool : VipsThreadpool) :
    Prop where
  read_eq : pool.read = List.range (i + 1)
  freed_eq : pool.freed = (if (answers i).memory then [i] else []) ++ List.range i
  joined_eq : version = .pthreads → pool.joined = List.range i

/-- The loop reads through `NULL` when a thread cannot be made. -/
theorem createLoop_faults (inside : i < nthr) (before : ∀ j < i, (answers j).fails version = false)
    (failed : (answers i).fails version = true) :
    ∀ rest k pool, k + rest = nthr → k ≤ i → Filled version nthr k pool →
      ∃ stopped, createLoop version answers (List.range' k rest) pool = .error stopped ∧
        Stopped version answers i stopped := by
  intro rest
  induction rest with
  | zero =>
    intro k pool total le filled
    omega
  | succ rest ih =>
    intro k pool total le filled
    rw [List.range'_succ, createLoop]
    rcases le.lt_or_eq with less | rfl
    · obtain ⟨next, made, filled⟩ := filled.filled_next (before k less)
      obtain ⟨stopped, stops, how⟩ := ih (k + 1) _ (by omega) less filled
      exact ⟨stopped, by simp only [made, bind, Except.bind, stops], how⟩
    · obtain ⟨next, made, nthr_eq, thr_eq, threads, read, joined, freed⟩ := filled.new_fails failed
      obtain ⟨thr, here, entries⟩ := filled.filled
      have entered : (next.fill k none).thr = some (Function.update thr k none) := by
        simp [fill, thr_eq, here]
      obtain ⟨last, stopped, stops, killed, rfl⟩ := killThreads_error entered
        (by rw [← nthr_eq] at inside; exact inside)
        (fun j below => by rw [Function.update_of_ne (by omega)]; exact entries j below)
        (fun runs j below => by
          simp only [fill, threads j below]
          exact filled.running runs j below)
        (Function.update_self ..)
      refine ⟨{ last with read := last.read ++ [k] },
        by simp only [made, bind, Except.bind, stops], ?_, ?_, ?_⟩
      · simp [killed.read_eq, fill, read, List.range_succ]
      · simp [killed.freed_eq, fill, freed]
      · intro runs
        simp [killed.joined_eq runs, fill, joined]

/-- When a thread cannot be made the clean-up junks the threads before it and then reads through the
`NULL` of the array where that thread would be. -/
theorem createThreads_faults (inside : i < nthr)
    (before : ∀ j < i, (answers j).fails version = false)
    (failed : (answers i).fails version = true) :
    ∃ stopped, createThreads version true answers (new nthr) = .error stopped ∧
      Stopped version answers i stopped := by
  have filled : Filled version nthr 0 { new nthr with thr := some fun _ => none } :=
    ⟨rfl, rfl, ⟨_, rfl, by simp⟩, by simp, rfl, rfl, rfl⟩
  obtain ⟨stopped, stops, how⟩ :=
    createLoop_faults inside before failed nthr 0 _ (by omega) (by omega) filled
  refine ⟨stopped, ?_, how⟩
  rw [createThreads, if_pos rfl, ← stops, List.range_eq_range']
  rfl

/-- The creation of the threads never cleans up after a failure, in no version and at no place. -/
theorem createThreads_not_cleansUp (version : Version) (nthr i : Nat) (answers : Nat → Answer)
    (inside : i < nthr) (before : ∀ j < i, (answers j).fails version = false)
    (failed : (answers i).fails version = true) :
    ¬ CleansUp version i (createThreads version true answers (new nthr)) := by
  obtain ⟨stopped, stops, -⟩ := createThreads_faults inside before failed
  rintro ⟨pool, returns, -⟩
  rw [stops] at returns
  cases returns

/-- The answers when there is no thread of the thread library for thread `i`. -/
def withoutThread (i j : Nat) : Answer := { memory := true, thread := j != i, state := true }

/-- The second thread is not made, and the first one is left. -/
theorem createThreads_not_cleansUp_second :
    ¬ CleansUp .pthreads 1 (createThreads .pthreads true (withoutThread 1) (new 4)) :=
  createThreads_not_cleansUp .pthreads 4 1 (withoutThread 1) (by decide) (by decide) (by decide)

/-- Of two threads the second cannot be made: after the first was joined and junked, the clean-up
reads through `NULL`. -/
theorem clean_up_faults :
    ¬ ∀ (version : Version) (nthr i : Nat) (answers : Nat → Answer), i < nthr →
      (∀ j < i, (answers j).fails version = false) → (answers i).fails version = true →
      CleansUp version i (createThreads version true answers (new nthr)) := by
  intro cleans
  obtain ⟨pool, returns, -⟩ :=
    cleans .pthreads 2 1 (withoutThread 1) (by decide) (by decide) (by decide)
  have faults : (createThreads .pthreads true (withoutThread 1) (new 2)).toOption.isNone = true :=
    by decide
  rw [returns] at faults
  cases faults

/-- When no creation fails all threads are made. -/
theorem createLoop_fills (works : ∀ j < nthr, (answers j).fails version = false) :
    ∀ rest k pool, k + rest = nthr → Filled version nthr k pool →
      ∃ next, createLoop version answers (List.range' k rest) pool = .ok (0, next) ∧
        Filled version nthr nthr next := by
  intro rest
  induction rest with
  | zero =>
    intro k pool total filled
    obtain rfl : k = nthr := by omega
    exact ⟨pool, rfl, filled⟩
  | succ rest ih =>
    intro k pool total filled
    obtain ⟨next, made, filled⟩ := filled.filled_next (works k (by omega))
    obtain ⟨last, fills, all⟩ := ih (k + 1) _ (by omega) filled
    refine ⟨last, ?_, all⟩
    rw [List.range'_succ, createLoop]
    simp only [made, bind, Except.bind, fills]

/-- When all threads are made the pool can be freed, which junks each thread once, and freed again,
which junks none. -/
theorem free_twice (works : ∀ j < nthr, (answers j).fails version = false) :
    ∃ pool next, createThreads version true answers (new nthr) = .ok (0, pool) ∧
      free version pool = .ok next ∧ next.freed = List.range nthr ∧
      free version next = .ok next := by
  have filled : Filled version nthr 0 { new nthr with thr := some fun _ => none } :=
    ⟨rfl, rfl, ⟨_, rfl, by simp⟩, by simp, rfl, rfl, rfl⟩
  obtain ⟨pool, fills, filled⟩ := createLoop_fills works nthr 0 _ (by omega) filled
  obtain ⟨thr, here, entries⟩ := filled.filled
  obtain ⟨last, kills, killed⟩ := kill_range entries filled.running
  refine ⟨pool, { last with thr := none, allocateLock := false }, ?_, ?_, ?_, rfl⟩
  · rw [createThreads, if_pos rfl, ← fills, List.range_eq_range']
    rfl
  · simp only [free, killThreads, here, filled.nthr_eq, kills, bind, Except.bind]
    rfl
  · simp [killed.freed_eq, filled.freed_eq]

end VipsThreadpool

end P3arsec.Vips.CreateThreads
