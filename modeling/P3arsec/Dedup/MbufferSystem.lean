import Mathlib

/-!
# The locks of the memory buffers

The counters of the memory buffers are guarded by a table of locks, which `mbuffer_system_init`
allocates and initialises and `mbuffer_system_destroy` takes down. What is done with the table and
with its locks is recorded in order.

When a lock can not be initialised, the ones before it have to be destroyed. The loop that does this
counts them, but it destroys the lock that has failed each time.
-/

namespace P3arsec.Dedup

/-- What is done with the table and with its locks. -/
inductive LockCall
  /-- The table is allocated. -/
  | malloc
  /-- `PTHREAD_LOCK_INIT` of a lock, with its result. -/
  | init (lock : Nat) (rv : Int)
  /-- `PTHREAD_LOCK_DESTROY` of a lock. -/
  | destroy (lock : Nat)
  /-- The table is freed. -/
  | free
  deriving DecidableEq, Repr

/-- The lock that a call initialises. -/
def LockCall.initialised? : LockCall → Option Nat
  | .init lock rv => if rv = 0 then some lock else none
  | _ => none

/-- The lock that a call destroys. -/
def LockCall.destroyed? : LockCall → Option Nat
  | .destroy lock => some lock
  | _ => none

/-- The locks that are initialised in some calls. -/
def initialised (calls : List LockCall) : List Nat := calls.filterMap LockCall.initialised?

/-- The locks that are destroyed in some calls. -/
def destroyed (calls : List LockCall) : List Nat := calls.filterMap LockCall.destroyed?

/-- The variable `locks` and what has been done. -/
structure LockTable where
  /-- Whether `locks` is not a null pointer. -/
  locks : Bool
  /-- The calls so far. -/
  calls : List LockCall
  deriving DecidableEq, Repr

namespace LockTable

/-- One more call. -/
def call (table : LockTable) (c : LockCall) : LockTable :=
  { table with calls := table.calls ++ [c] }

/-- `free((void *)locks); locks=NULL;` -/
def release (table : LockTable) : LockTable := { table.call .free with locks := false }

/-- The loop of `mbuffer_system_init` from lock `i` on, where `rv` has the results of
`PTHREAD_LOCK_INIT`. -/
def initLocks (numberOfLocks : Nat) (rv : Nat → Int) (table : LockTable) (i : Nat) :
    Int × LockTable :=
  if i < numberOfLocks then
    let table := table.call (.init i (rv i))
    if rv i ≠ 0 then
      -- the loop counts with `j` and destroys `locks[i]`
      let table := (List.range i).foldl (fun table _ => table.call (.destroy i)) table
      (-1, table.release)
    else initLocks numberOfLocks rv table (i + 1)
  else (0, table)
termination_by numberOfLocks - i

/-- `mbuffer_system_init`, where `memory` tells whether `malloc` has memory for the table. -/
def mbufferSystemInit (numberOfLocks : Nat) (memory : Bool) (rv : Nat → Int) (table : LockTable) :
    Option (Int × LockTable) := do
  guard (table.locks = false)
  if memory then
    some (initLocks numberOfLocks rv { table.call .malloc with locks := true } 0)
  else some (-1, table)

/-- `mbuffer_system_destroy`, where `rv` has the results of `PTHREAD_LOCK_DESTROY`. -/
def mbufferSystemDestroy (numberOfLocks : Nat) (rv : Nat → Int) (table : LockTable) :
    Int × LockTable :=
  let table := (List.range numberOfLocks).foldl (fun table i => table.call (.destroy i)) table
  (if ((List.range numberOfLocks).map rv).sum ≠ 0 then -1 else 0, table.release)

variable {numberOfLocks i k : Nat} {rv : Nat → Int} {table : LockTable}

/-- A call is recorded. -/
@[simp] theorem call_calls (c : LockCall) : (table.call c).calls = table.calls ++ [c] := rfl

/-- The release of the table is recorded. -/
@[simp] theorem release_calls : table.release.calls = table.calls ++ [.free] := rfl

/-- A loop that makes a call for each entry of a list. -/
theorem foldl_call {α : Type} (entries : List α) (c : α → LockCall) (table : LockTable) :
    entries.foldl (fun table entry => table.call (c entry)) table =
      { table with calls := table.calls ++ entries.map c } := by
  induction entries generalizing table with
  | nil => rw [List.foldl_nil, List.map_nil, List.append_nil]
  | cons entry entries ih =>
    rw [List.foldl_cons, ih, List.map_cons, call_calls, List.append_assoc]
    rfl

/-- The calls of the loop up to the lock that fails, and what it does then. -/
theorem initLocks_fails (inside : k < numberOfLocks) (before : ∀ lock < k, rv lock = 0)
    (fails : rv k ≠ 0) (ordered : i ≤ k) :
    initLocks numberOfLocks rv table i = (-1, ⟨false, table.calls ++
      ((List.range' i (k - i)).map (.init · 0) ++ .init k (rv k) ::
        List.replicate k (.destroy k) ++ [.free])⟩) := by
  induction left : k - i generalizing table i with
  | zero =>
    obtain rfl : i = k := by omega
    rw [initLocks, if_pos inside]
    dsimp only
    rw [if_pos fails, foldl_call, List.map_const', List.length_range, call_calls]
    simp only [release, call, List.append_assoc, List.range'_zero, List.map_nil, List.nil_append,
      List.cons_append]
  | succ count ih =>
    have succeeds := before i (by omega)
    rw [initLocks, if_pos (by omega)]
    dsimp only
    rw [if_neg (not_not.mpr succeeds), ih (by omega) (by omega), call_calls, List.range'_succ,
      succeeds]
    simp only [List.append_assoc, List.map_cons, List.cons_append, List.nil_append]

/-- The calls of the loop when no lock fails. -/
theorem initLocks_succeeds (succeeds : ∀ lock < numberOfLocks, rv lock = 0) :
    initLocks numberOfLocks rv table i =
      (0, { table with calls := table.calls ++
        (List.range' i (numberOfLocks - i)).map (.init · 0) }) := by
  induction left : numberOfLocks - i generalizing table i with
  | zero =>
    rw [initLocks, if_neg (by omega), List.range'_zero, List.map_nil, List.append_nil]
  | succ count ih =>
    have succeeds' := succeeds i (by omega)
    rw [initLocks, if_pos (by omega)]
    dsimp only
    rw [if_neg (not_not.mpr succeeds'), ih (by omega), call_calls, List.range'_succ, succeeds']
    simp only [call, List.append_assoc, List.map_cons, List.cons_append, List.nil_append]

/-! ### What is destroyed -/

/-- No calls initialise no locks. -/
@[simp] theorem initialised_nil : initialised [] = [] := rfl

/-- No calls destroy no locks. -/
@[simp] theorem destroyed_nil : destroyed [] = [] := rfl

/-- The locks that the first call and the others initialise. -/
@[simp] theorem initialised_cons (c : LockCall) (calls : List LockCall) :
    initialised (c :: calls) = c.initialised?.toList ++ initialised calls := by
  unfold initialised
  rw [List.filterMap_cons]
  cases c.initialised? <;> rfl

/-- The locks that the first call and the others destroy. -/
@[simp] theorem destroyed_cons (c : LockCall) (calls : List LockCall) :
    destroyed (c :: calls) = c.destroyed?.toList ++ destroyed calls := by
  unfold destroyed
  rw [List.filterMap_cons]
  cases c.destroyed? <;> rfl

/-- The locks that two lists of calls initialise. -/
@[simp] theorem initialised_append (calls calls' : List LockCall) :
    initialised (calls ++ calls') = initialised calls ++ initialised calls' :=
  List.filterMap_append

/-- The locks that two lists of calls destroy. -/
@[simp] theorem destroyed_append (calls calls' : List LockCall) :
    destroyed (calls ++ calls') = destroyed calls ++ destroyed calls' :=
  List.filterMap_append

/-- Calls that initialise locks. -/
@[simp] theorem initialised_init (locks : List Nat) :
    initialised (locks.map (.init · 0)) = locks := by
  unfold initialised
  rw [List.filterMap_map]
  exact List.filterMap_some

/-- They destroy none. -/
@[simp] theorem destroyed_init (locks : List Nat) : destroyed (locks.map (.init · 0)) = [] := by
  unfold destroyed
  rw [List.filterMap_map, List.filterMap_eq_nil_iff]
  exact fun _ _ => rfl

/-- Calls that destroy locks initialise none. -/
@[simp] theorem initialised_destroy (locks : List Nat) :
    initialised (locks.map .destroy) = [] := by
  unfold initialised
  rw [List.filterMap_map, List.filterMap_eq_nil_iff]
  exact fun _ _ => rfl

/-- The locks that they destroy. -/
@[simp] theorem destroyed_destroy (locks : List Nat) : destroyed (locks.map .destroy) = locks := by
  unfold destroyed
  rw [List.filterMap_map]
  exact List.filterMap_some

/-- When lock `k` fails, it is destroyed `k` times, and no other lock is destroyed. -/
theorem mbufferSystemInit_fails (inside : k < numberOfLocks) (before : ∀ lock < k, rv lock = 0)
    (fails : rv k ≠ 0) (null : table.locks = false) :
    ∃ calls, mbufferSystemInit numberOfLocks true rv table =
        some (-1, ⟨false, table.calls ++ calls⟩) ∧
      initialised calls = List.range k ∧ destroyed calls = List.replicate k k := by
  refine ⟨[.malloc] ++ (List.range k).map (.init · 0) ++ [.init k (rv k)] ++
    (List.replicate k k).map .destroy ++ [.free], ?_, ?_, ?_⟩
  · unfold mbufferSystemInit
    rw [null, initLocks_fails inside before fails (Nat.zero_le k)]
    simp [call, List.range_eq_range']
  · simp [LockCall.initialised?, fails, -List.map_replicate]
  · simp [LockCall.destroyed?, -List.map_replicate]

/-- `mbuffer_system_init` fails, and the locks before lock `k` have been initialised and destroyed,
each once. -/
def Cleans (numberOfLocks : Nat) (rv : Nat → Int) (k : Nat) (table : LockTable) : Prop :=
  ∃ table' calls, mbufferSystemInit numberOfLocks true rv table = some (-1, table') ∧
    table'.calls = table.calls ++ calls ∧ initialised calls = List.range k ∧
    (destroyed calls).Perm (List.range k)

/-- Lock 0 is not destroyed when a later lock fails. -/
theorem not_cleans (inside : k < numberOfLocks) (before : ∀ lock < k, rv lock = 0)
    (fails : rv k ≠ 0) (null : table.locks = false) (later : 0 < k) :
    ¬ Cleans numberOfLocks rv k table := by
  rintro ⟨table', calls', result', same, -, cleaned⟩
  obtain ⟨calls, result, -, ended⟩ := mbufferSystemInit_fails inside before fails null
  obtain rfl : (⟨false, table.calls ++ calls⟩ : LockTable) = table' :=
    congrArg Prod.snd (Option.some.inj (result.symm.trans result'))
  obtain rfl : calls = calls' := List.append_cancel_left same
  have first : 0 ∈ List.replicate k k := ended ▸ cleaned.mem_iff.mpr (List.mem_range.mpr later)
  exact later.ne (List.eq_of_mem_replicate first)

/-- The locks that have been initialised are destroyed, each once, only when there are none: it is
the first lock that fails. -/
theorem cleans_iff (inside : k < numberOfLocks) (before : ∀ lock < k, rv lock = 0)
    (fails : rv k ≠ 0) (null : table.locks = false) :
    Cleans numberOfLocks rv k table ↔ k = 0 := by
  constructor
  · intro cleans
    by_contra later
    exact not_cleans inside before fails null (Nat.pos_of_ne_zero later) cleans
  · rintro rfl
    obtain ⟨calls, result, started, ended⟩ := mbufferSystemInit_fails inside before fails null
    exact ⟨_, calls, result, rfl, started, ended ▸ List.Perm.refl []⟩

/-- A failure of the first call leaves nothing to clean. -/
theorem cleans_first : Cleans 1021 (fun _ => 12) 0 ⟨false, []⟩ :=
  (cleans_iff (by decide) (fun _ early => absurd early (Nat.not_lt_zero _)) (by decide) rfl).mpr rfl

/-- When the third lock of the table fails, the two before it are not destroyed. -/
theorem not_cleans_third :
    ¬ Cleans 1021 (fun lock => if lock = 2 then 12 else 0) 2 ⟨false, []⟩ :=
  not_cleans (by decide) (by decide) (by decide) rfl (by decide)

/-- A table whose locks could all be initialised is taken down lock by lock. -/
theorem mbufferSystemDestroy_cleans {rv' : Nat → Int}
    (succeeds : ∀ lock < numberOfLocks, rv lock = 0) (null : table.locks = false) :
    ∃ table' calls, mbufferSystemInit numberOfLocks true rv table = some (0, table') ∧
      (mbufferSystemDestroy numberOfLocks rv' table').2 = ⟨false, table.calls ++ calls⟩ ∧
      initialised calls = List.range numberOfLocks ∧
      destroyed calls = List.range numberOfLocks := by
  refine ⟨⟨true, table.calls ++ [.malloc] ++ (List.range numberOfLocks).map (.init · 0)⟩,
    [.malloc] ++ (List.range numberOfLocks).map (.init · 0) ++
      (List.range numberOfLocks).map .destroy ++ [.free], ?_, ?_, ?_, ?_⟩
  · unfold mbufferSystemInit
    rw [null, initLocks_succeeds succeeds]
    simp [call, List.range_eq_range']
  · unfold mbufferSystemDestroy
    rw [foldl_call]
    simp [release, call]
  · simp [LockCall.initialised?]
  · simp [LockCall.destroyed?]

end LockTable

end P3arsec.Dedup
