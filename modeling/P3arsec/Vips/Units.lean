import P3arsec.Vips.Threadpool

/-!
# The work units of the thread pool

Only the worker that has the allocate lock calls `allocate` or sets stop, and it has looked at stop
after it got the lock (`LockInv`). The unit that a call hands out stays set up in the thread state
of the worker until the worker has passed it to `work`, which it does before its next round
(`UnitInv`). So when `vips_threadpool_run` returns, the units handed out are those worked on.
-/

namespace P3arsec.Vips

open P3arsec.Lib

/-- The work unit that a worker has, with its thread state. -/
def VipsThread.inHand (thr : VipsThread) : Multiset (Option Nat × Option Nat) :=
  match thr.unit with
  | some unit => {(thr.state, some unit)}
  | none => 0

namespace VipsThreadpool

variable {call : Call} {pool next : VipsThreadpool} {t : Nat} {reply : Reply}

/-- One thread changes. -/
@[simp] theorem thr_setThr (pool : VipsThreadpool) (t t' : Nat) (thr : VipsThread) :
    (pool.setThr t thr).thr t' = if t' = t then thr else pool.thr t' :=
  Function.update_apply _ _ _ _

/-- The lock is with the worker that is between taking and giving it back. -/
def Owned (nthr : Nat) (lock : Option Nat) (thr : Nat → VipsThread) : Prop :=
  ∀ t, lock = some t ↔ t < nthr ∧ (thr t).point.locked = true

namespace Owned

variable {nthr : Nat} {lock : Option Nat} {thr : Nat → VipsThread} {worker : VipsThread}

/-- A step that neither takes nor gives back the lock. -/
theorem keep (owned : Owned nthr lock thr)
    (same : worker.point.locked = (thr t).point.locked) :
    Owned nthr lock (Function.update thr t worker) := by
  intro t'
  rw [owned t', Function.update_apply]
  split
  · rename_i here
    rw [here, same]
  · rfl

/-- A worker takes the lock. -/
theorem acquire (owned : Owned nthr none thr) (inside : t < nthr)
    (taken : worker.point.locked = true) :
    Owned nthr (some t) (Function.update thr t worker) := by
  intro t'
  rw [Function.update_apply]
  by_cases here : t' = t
  · rw [if_pos here, here]
    exact ⟨fun _ => ⟨inside, taken⟩, fun _ => rfl⟩
  · rw [if_neg here, ← owned t']
    constructor
    · intro same
      exact absurd (Option.some.inj same).symm here
    · intro none
      cases none

/-- The worker that has the lock gives it back. -/
theorem release (owned : Owned nthr lock thr) (inside : t < nthr)
    (before : (thr t).point.locked = true) (given : worker.point.locked = false) :
    Owned nthr none (Function.update thr t worker) := by
  intro t'
  rw [Function.update_apply]
  constructor
  · intro none
    cases none
  · rintro ⟨known, locked⟩
    split at locked
    · rw [given] at locked
      cases locked
    · rename_i away
      have mine := (owned t).mpr ⟨inside, before⟩
      have others := (owned t').mpr ⟨known, locked⟩
      rw [mine] at others
      exact absurd (Option.some.inj others).symm away

/-- Only one worker is between taking the lock and giving it back. -/
theorem unique (owned : Owned nthr lock thr) {t t' : Nat} (inside : t < nthr) (inside' : t' < nthr)
    (locked : (thr t).point.locked = true) (locked' : (thr t').point.locked = true) : t = t' := by
  have mine := (owned t).mpr ⟨inside, locked⟩
  rw [(owned t').mpr ⟨inside', locked'⟩] at mine
  exact (Option.some.inj mine).symm

end Owned

/-- What is known of the lock and of stop. -/
structure LockInv (call : Call) (pool : VipsThreadpool) : Prop where
  /-- The lock is with the worker that is between taking and giving it back. -/
  owned : Owned call.nthr pool.allocateLock pool.thr
  /-- A worker that is about to call `allocate` has seen that stop is not set. -/
  runs : ∀ t < call.nthr, (pool.thr t).point = .allocate ∨ (pool.thr t).point = .start →
    pool.stop = false
  /-- No call of `vips_thread_allocate` was made after stop. -/
  calls : ∀ stop ∈ pool.calls, stop = false

namespace LockInv

/-- A change of a worker that is not about to call `allocate`, or sees that stop is not set. -/
theorem runs_set (inv : LockInv call pool) {worker : VipsThread}
    (here : worker.point = .allocate ∨ worker.point = .start → pool.stop = false) :
    ∀ t' < call.nthr, (Function.update pool.thr t worker t').point = .allocate ∨
      (Function.update pool.thr t worker t').point = .start → pool.stop = false := by
  intro t' inside about
  rw [Function.update_apply] at about
  split at about
  · exact here about
  · exact inv.runs t' inside about

/-- A step of a worker keeps what is known of the lock. -/
theorem stepWorker (inv : LockInv call pool) (inside : t < call.nthr)
    (moves : WorkerStep t pool reply next) : LockInv call next := by
  cases moves with
  | enter here =>
    refine ⟨inv.owned.keep ?_, inv.runs_set ?_, inv.calls⟩
    · rw [here]
      split <;> rfl
    · dsimp only
      split <;> simp
  | lock here free =>
    have owned := inv.owned
    rw [free] at owned
    exact ⟨owned.acquire inside rfl, inv.runs_set (by simp), inv.calls⟩
  | stopped here stop =>
    exact ⟨inv.owned.release inside (by rw [here]; rfl) rfl, inv.runs_set (by simp), inv.calls⟩
  | goOn here stop =>
    exact ⟨inv.owned.keep (by rw [here]; rfl), inv.runs_set fun _ => stop, inv.calls⟩
  | allocate here =>
    have stop := inv.runs t inside (.inl here)
    refine ⟨inv.owned.keep ?_, inv.runs_set fun _ => stop, ?_⟩
    · rw [here]
      dsimp only
      split <;> rfl
    · intro called member
      rcases List.mem_append.mp member with before | last
      · exact inv.calls called before
      · rw [List.mem_singleton.mp last]
        exact stop
  | started here =>
    exact ⟨inv.owned.keep (by rw [here]; rfl), inv.runs_set (by simp), inv.calls⟩
  | failed here =>
    refine ⟨inv.owned.release inside ?_ rfl, inv.runs_set (by simp), inv.calls⟩
    rcases here with here | here <;> rw [here] <;> rfl
  | stop here goes =>
    refine ⟨inv.owned, fun t' inside' about => ?_, inv.calls⟩
    -- the other worker would have the lock too
    have locked : (pool.thr t').point.locked = true := by
      rcases about with about | about <;> rw [about] <;> rfl
    have same := inv.owned.unique inside inside' (by rw [here]; rfl) locked
    rw [← same, here] at about
    simp at about
  | last here stop =>
    exact ⟨inv.owned.keep (by rw [here]; rfl), inv.runs_set (by simp), inv.calls⟩
  | hand here stop some =>
    exact ⟨inv.owned.keep (by rw [here]; rfl), inv.runs_set (by simp), inv.calls⟩
  | unlock here =>
    refine ⟨inv.owned.release inside (by rw [here]; rfl) ?_, inv.runs_set ?_, inv.calls⟩
    · dsimp only
      split <;> rfl
    · dsimp only
      split <;> simp
  | work here =>
    exact ⟨inv.owned.keep (by rw [here]; rfl), inv.runs_set (by simp), inv.calls⟩
  | workFailed here =>
    exact ⟨inv.owned.keep (by rw [here]; rfl), inv.runs_set (by simp), inv.calls⟩
  | tick here =>
    exact ⟨inv.owned.keep (by rw [here]; rfl), inv.runs_set (by simp), inv.calls⟩
  | loop here =>
    refine ⟨inv.owned.keep ?_, inv.runs_set ?_, inv.calls⟩
    · rw [here]
      dsimp only
      split <;> rfl
    · dsimp only
      split <;> simp

/-- The main side does not touch the lock. -/
theorem stepMain (inv : LockInv call pool) (moves : MainStep call pool reply next) :
    LockInv call next := by
  cases moves <;> exact ⟨inv.owned, inv.runs, inv.calls⟩

/-- The lock is free at the start. -/
theorem start (call : Call) : LockInv call (start call) where
  owned t := by
    constructor
    · intro none
      cases none
    · rintro ⟨-, locked⟩
      cases locked
  runs _ _ about := by rcases about with about | about <;> cases about
  calls _ member := by cases member

end LockInv

/-- What is known of the thread states and the work units. -/
structure UnitInv (call : Call) (pool : VipsThreadpool) : Prop where
  /-- The thread states are those that `start` has made. -/
  made : ∀ t < call.nthr, ∀ state, (pool.thr t).state = some state → state < pool.states
  /-- Every worker has its own thread state. -/
  distinct : ∀ t < call.nthr, ∀ t' < call.nthr, ∀ state, (pool.thr t).state = some state →
    (pool.thr t').state = some state → t = t'
  /-- A worker that calls `allocate` has a thread state. -/
  hasState : ∀ t < call.nthr, (pool.thr t).point = .allocating → (pool.thr t).state ≠ none
  /-- A worker has a unit between the call that hands it out and the call of `work`. -/
  hasUnit : ∀ t < call.nthr, ((pool.thr t).unit ≠ none ↔
    (pool.thr t).point = .work ∨ (pool.thr t).point = .handed ∧ pool.stop = false)
  /-- The unit is still set up in the thread state. -/
  setUp : ∀ t < call.nthr, ∀ unit, (pool.thr t).unit = some unit →
    (pool.thr t).state ≠ none ∧ pool.slot (pool.thr t).state = some unit
  /-- The units are numbered in the order in which they are handed out. -/
  numbered : pool.handed.map Prod.snd = List.range pool.handed.length
  /-- The units handed out are those worked on and those that the workers have. -/
  balance : (pool.handed.map (fun entry => (entry.1, some entry.2)) : Multiset _) =
    (pool.worked : Multiset _) + ∑ t ∈ Finset.range call.nthr, (pool.thr t).inHand

namespace UnitInv

/-- A change of a worker that keeps its state and its unit. -/
theorem keep (inv : UnitInv call pool) {worker : VipsThread}
    (thr : next.thr = Function.update pool.thr t worker)
    (same : next.stop = pool.stop ∧ next.states = pool.states ∧ next.slot = pool.slot ∧
      next.handed = pool.handed ∧ next.worked = pool.worked)
    (state : worker.state = (pool.thr t).state) (unit : worker.unit = (pool.thr t).unit)
    (hasState : worker.point = .allocating → (pool.thr t).state ≠ none)
    (hasUnit : (worker.point = .work ∨ worker.point = .handed ∧ pool.stop = false) ↔
      ((pool.thr t).point = .work ∨ (pool.thr t).point = .handed ∧ pool.stop = false)) :
    UnitInv call next := by
  obtain ⟨stop, states, slot, handed, worked⟩ := same
  have states' : ∀ t', (next.thr t').state = (pool.thr t').state := by
    intro t'
    rw [thr, Function.update_apply]
    split
    · rename_i here
      rw [here, state]
    · rfl
  have units' : ∀ t', (next.thr t').unit = (pool.thr t').unit := by
    intro t'
    rw [thr, Function.update_apply]
    split
    · rename_i here
      rw [here, unit]
    · rfl
  have inHand' : ∀ t', (next.thr t').inHand = (pool.thr t').inHand := by
    intro t'
    rw [VipsThread.inHand, VipsThread.inHand, units', states']
  exact {
    made := fun t' inside number has => by
      rw [states'] at has
      rw [states]
      exact inv.made t' inside number has
    distinct := fun t1 inside1 t2 inside2 number has1 has2 => by
      rw [states'] at has1 has2
      exact inv.distinct t1 inside1 t2 inside2 number has1 has2
    hasState := fun t' inside calls => by
      rw [states']
      rw [thr, Function.update_apply] at calls
      split at calls
      · rename_i here
        subst here
        exact hasState calls
      · exact inv.hasState t' inside calls
    hasUnit := fun t' inside => by
      rw [units', inv.hasUnit t' inside, stop, thr, Function.update_apply]
      split
      · rename_i here
        subst here
        exact hasUnit.symm
      · rfl
    setUp := fun t' inside number has => by
      rw [units'] at has
      rw [states', slot]
      exact inv.setUp t' inside number has
    numbered := by
      rw [handed]
      exact inv.numbered
    balance := by
      rw [handed, worked, inv.balance]
      congr 1
      exact Finset.sum_congr rfl fun t' _ => (inHand' t').symm }

/-- A worker has no unit where it is neither between a hand-out and `work`. -/
theorem no_unit (inv : UnitInv call pool) (inside : t < call.nthr)
    (here : ¬((pool.thr t).point = .work ∨ (pool.thr t).point = .handed ∧ pool.stop = false)) :
    (pool.thr t).unit = none := by
  by_contra some
  exact here ((inv.hasUnit t inside).mp some)

/-- `start` makes a new thread state. -/
theorem started (inv : UnitInv call pool) (inside : t < call.nthr)
    (here : (pool.thr t).point = .start) :
    UnitInv call ({ pool with states := pool.states + 1 }.setThr t { pool.thr t with
      state := some pool.states, point := .allocating }) := by
  have none := inv.no_unit inside (by rw [here]; simp)
  -- no other worker has a state with the new number
  have fresh : ∀ t' < call.nthr, (pool.thr t').state ≠ some pool.states := fun t' inside' has =>
    absurd (inv.made t' inside' _ has) (lt_irrefl _)
  exact {
    made := fun t' inside' number has => by
      rw [thr_setThr] at has
      show number < pool.states + 1
      split at has
      · obtain rfl := Option.some.inj has
        omega
      · have before := inv.made t' inside' number has
        omega
    distinct := fun t1 inside1 t2 inside2 number has1 has2 => by
      rw [thr_setThr] at has1 has2
      split at has1 <;> split at has2
      · omega
      · obtain rfl := Option.some.inj has1
        exact absurd has2 (fresh t2 inside2)
      · obtain rfl := Option.some.inj has2
        exact absurd has1 (fresh t1 inside1)
      · exact inv.distinct t1 inside1 t2 inside2 number has1 has2
    hasState := fun t' inside' calls => by
      rw [thr_setThr] at calls ⊢
      split at calls
      · rename_i same
        rw [if_pos same]
        simp
      · rename_i away
        rw [if_neg away]
        exact inv.hasState t' inside' calls
    hasUnit := fun t' inside' => by
      rw [thr_setThr]
      split
      · simp [none]
      · exact inv.hasUnit t' inside'
    setUp := fun t' inside' unit has => by
      rw [thr_setThr] at has ⊢
      split at has
      · rw [show ({ pool.thr t with state := some pool.states, point := Point.allocating } :
          VipsThread).unit = (pool.thr t).unit from rfl, none] at has
        cases has
      · rename_i away
        rw [if_neg away]
        exact inv.setUp t' inside' unit has
    numbered := inv.numbered
    balance := by
      have sum := sum_range_update VipsThread.inHand pool.thr
        { pool.thr t with state := some pool.states, point := .allocating } inside
      have before : (pool.thr t).inHand = 0 := by
        rw [VipsThread.inHand, none]
      have after : ({ pool.thr t with state := some pool.states, point := Point.allocating } :
          VipsThread).inHand = 0 := by
        simp only [VipsThread.inHand, none]
      rw [before, after, add_zero, add_zero] at sum
      exact inv.balance.trans (congrArg _ sum.symm) }

/-- `allocate` hands out a work unit. -/
theorem hand (inv : UnitInv call pool) (inside : t < call.nthr)
    (here : (pool.thr t).point = .allocating) (stop : pool.stop = false) :
    UnitInv call ({ pool with
      left := pool.left - 1
      handed := pool.handed ++ [((pool.thr t).state, pool.handed.length)]
      slot := Function.update pool.slot (pool.thr t).state
        (some pool.handed.length) }.setThr t { pool.thr t with
        unit := some pool.handed.length, point := .handed }) := by
  have none := inv.no_unit inside (by rw [here]; simp)
  have mine := inv.hasState t inside here
  -- the other workers have other thread states
  have others : ∀ t' < call.nthr, t' ≠ t → (pool.thr t').state ≠ (pool.thr t).state := by
    intro t' inside' away same
    obtain ⟨number, has⟩ := Option.ne_none_iff_exists'.mp mine
    exact away (inv.distinct t' inside' t inside number (same.trans has) has)
  exact {
    made := fun t' inside' number has => by
      rw [thr_setThr] at has
      split at has
      · exact inv.made t inside number has
      · exact inv.made t' inside' number has
    distinct := fun t1 inside1 t2 inside2 number has1 has2 => by
      rw [thr_setThr] at has1 has2
      split at has1 <;> split at has2
      · omega
      · rename_i same _
        rw [same]
        exact inv.distinct t inside t2 inside2 number has1 has2
      · rename_i _ same
        rw [same]
        exact inv.distinct t1 inside1 t inside number has1 has2
      · exact inv.distinct t1 inside1 t2 inside2 number has1 has2
    hasState := fun t' inside' calls => by
      rw [thr_setThr] at calls ⊢
      split at calls
      · cases calls
      · rename_i away
        rw [if_neg away]
        exact inv.hasState t' inside' calls
    hasUnit := fun t' inside' => by
      rw [thr_setThr]
      split
      · simp [setThr, stop]
      · exact inv.hasUnit t' inside'
    setUp := fun t' inside' unit has => by
      rw [thr_setThr] at has ⊢
      split at has
      · rename_i same
        rw [if_pos same]
        exact ⟨mine, (Function.update_self _ _ _).trans has⟩
      · rename_i away
        rw [if_neg away]
        have before := inv.setUp t' inside' unit has
        exact ⟨before.1, (Function.update_of_ne (others t' inside' away) _ _).trans before.2⟩
    numbered := by
      show (pool.handed ++ [_]).map Prod.snd = List.range (pool.handed ++ [_]).length
      rw [List.map_append, inv.numbered, List.length_append, List.length_singleton,
        List.range_succ]
      rfl
    balance := by
      have sum := sum_range_update VipsThread.inHand pool.thr
        { pool.thr t with unit := some pool.handed.length, point := .handed } inside
      have before : (pool.thr t).inHand = 0 := by
        rw [VipsThread.inHand, none]
      rw [before, add_zero] at sum
      show (Multiset.ofList (List.map _ (pool.handed ++ [_]))) = _ + ∑ t' ∈ _, _
      rw [List.map_append, ← Multiset.coe_add, inv.balance, add_assoc]
      exact congrArg _ sum.symm }

/-- `work` works on the unit that is set up in the thread state. -/
theorem work (inv : UnitInv call pool) (inside : t < call.nthr)
    (here : (pool.thr t).point = .work) {worker : VipsThread}
    (thr : next.thr = Function.update pool.thr t worker)
    (same : next.stop = pool.stop ∧ next.states = pool.states ∧ next.slot = pool.slot ∧
      next.handed = pool.handed)
    (worked : next.worked =
      pool.worked ++ [((pool.thr t).state, pool.slot (pool.thr t).state)])
    (state : worker.state = (pool.thr t).state) (unit : worker.unit = none)
    (point : worker.point = .tick) : UnitInv call next := by
  obtain ⟨stop, states, slot, handed⟩ := same
  obtain ⟨mine, has⟩ := Option.ne_none_iff_exists'.mp ((inv.hasUnit t inside).mpr (.inl here))
  have states' : ∀ t', (next.thr t').state = (pool.thr t').state := by
    intro t'
    rw [thr, Function.update_apply]
    split
    · rename_i here
      rw [here, state]
    · rfl
  exact {
    made := fun t' inside' number known => by
      rw [states'] at known
      rw [states]
      exact inv.made t' inside' number known
    distinct := fun t1 inside1 t2 inside2 number has1 has2 => by
      rw [states'] at has1 has2
      exact inv.distinct t1 inside1 t2 inside2 number has1 has2
    hasState := fun t' inside' calls => by
      rw [states']
      rw [thr, Function.update_apply] at calls
      split at calls
      · rw [point] at calls
        cases calls
      · exact inv.hasState t' inside' calls
    hasUnit := fun t' inside' => by
      rw [thr, Function.update_apply, stop]
      split
      · simp [unit, point]
      · exact inv.hasUnit t' inside'
    setUp := fun t' inside' number known => by
      rw [states', slot]
      rw [thr, Function.update_apply] at known
      split at known
      · rw [unit] at known
        cases known
      · exact inv.setUp t' inside' number known
    numbered := by
      rw [handed]
      exact inv.numbered
    balance := by
      have sum := sum_range_update VipsThread.inHand pool.thr worker inside
      have before : (pool.thr t).inHand =
          {((pool.thr t).state, pool.slot (pool.thr t).state)} := by
        rw [VipsThread.inHand, has, (inv.setUp t inside mine has).2]
      have after : worker.inHand = 0 := by
        rw [VipsThread.inHand, unit]
      rw [before, after, add_zero] at sum
      rw [handed, worked, thr, inv.balance, ← Multiset.coe_add, add_assoc, Multiset.coe_singleton,
        add_comm {_}, sum] }

/-- A step of a worker keeps what is known of the units. -/
theorem stepWorker (inv : UnitInv call pool) (locked : LockInv call pool)
    (inside : t < call.nthr) (moves : WorkerStep t pool reply next) : UnitInv call next := by
  cases moves with
  | enter here =>
    refine inv.keep rfl ⟨rfl, rfl, rfl, rfl, rfl⟩ rfl rfl ?_ ?_ <;> dsimp only <;> split <;>
      simp [here]
  | lock here free =>
    exact inv.keep rfl ⟨rfl, rfl, rfl, rfl, rfl⟩ rfl rfl (by simp) (by simp [here])
  | stopped here stop =>
    exact inv.keep rfl ⟨rfl, rfl, rfl, rfl, rfl⟩ rfl rfl (by simp) (by simp [here])
  | goOn here stop =>
    exact inv.keep rfl ⟨rfl, rfl, rfl, rfl, rfl⟩ rfl rfl (by simp) (by simp [here])
  | allocate here =>
    refine inv.keep rfl ⟨rfl, rfl, rfl, rfl, rfl⟩ rfl rfl ?_ ?_ <;> dsimp only <;> split
    · simp
    · rename_i known
      exact fun _ none => known (by rw [none]; rfl)
    · simp [here]
    · simp [here]
  | started here => exact inv.started inside here
  | failed here =>
    refine inv.keep rfl ⟨rfl, rfl, rfl, rfl, rfl⟩ rfl rfl (by simp) ?_
    rcases here with here | here <;> simp [here]
  | stop here goes =>
    refine ⟨inv.made, inv.distinct, inv.hasState, fun t' inside' => ?_, inv.setUp, inv.numbered,
      inv.balance⟩
    rw [inv.hasUnit t' inside']
    -- the other worker would have the lock too
    have away : (pool.thr t').point ≠ .handed := by
      intro handed
      have same := locked.owned.unique inside inside' (by rw [here]; rfl) (by rw [handed]; rfl)
      rw [← same, here] at handed
      cases handed
    simp [away]
  | last here stop =>
    exact inv.keep rfl ⟨rfl, rfl, rfl, rfl, rfl⟩ rfl rfl (by simp) (by simp [here, stop])
  | hand here stop some => exact inv.hand inside here stop
  | unlock here =>
    refine inv.keep rfl ⟨rfl, rfl, rfl, rfl, rfl⟩ rfl rfl ?_ ?_ <;> dsimp only <;> split <;>
      simp_all
  | work here => exact inv.work inside here rfl ⟨rfl, rfl, rfl, rfl⟩ rfl rfl rfl rfl
  | workFailed here => exact inv.work inside here rfl ⟨rfl, rfl, rfl, rfl⟩ rfl rfl rfl rfl
  | tick here => exact inv.keep rfl ⟨rfl, rfl, rfl, rfl, rfl⟩ rfl rfl (by simp) (by simp [here])
  | loop here =>
    refine inv.keep rfl ⟨rfl, rfl, rfl, rfl, rfl⟩ rfl rfl ?_ ?_ <;> dsimp only <;> split <;>
      simp [here]

/-- The main side does not touch the units. -/
theorem stepMain (inv : UnitInv call pool) (moves : MainStep call pool reply next) :
    UnitInv call next := by
  cases moves <;> exact ⟨inv.made, inv.distinct, inv.hasState, inv.hasUnit, inv.setUp,
    inv.numbered, inv.balance⟩

/-- There are no units at the start. -/
theorem start (call : Call) : UnitInv call (start call) where
  made _ _ _ has := by cases has
  distinct _ _ _ _ _ has := by cases has
  hasState _ _ calls := by cases calls
  hasUnit _ _ := by simp [VipsThreadpool.start]
  setUp _ _ _ has := by cases has
  numbered := rfl
  balance := by
    have none : ∀ t ∈ Finset.range call.nthr, ((VipsThreadpool.start call).thr t).inHand = 0 :=
      fun t _ => rfl
    rw [Finset.sum_eq_zero none]
    rfl

end UnitInv

/-- A worker that takes a step has not ended. -/
theorem WorkerStep.running (moves : WorkerStep t pool reply next) :
    (pool.thr t).point ≠ .ended := by
  intro ended
  cases moves <;> simp_all

/-- The step of a worker leaves the main side where it is. -/
theorem WorkerStep.main (moves : WorkerStep t pool reply next) : next.main = pool.main := by
  cases moves <;> rfl

/-- What the main side has seen of the workers when it returns. -/
def EndInv (call : Call) (pool : VipsThreadpool) : Prop :=
  pool.main = .returned → ∀ t < call.nthr, (pool.thr t).point = .ended

namespace EndInv

/-- A worker that has ended takes no step. -/
theorem stepWorker (inv : EndInv call pool) (inside : t < call.nthr)
    (moves : WorkerStep t pool reply next) : EndInv call next := by
  intro returned
  rw [moves.main] at returned
  exact absurd (inv returned t inside) moves.running

/-- The main side returns when it has seen the workers end. -/
theorem stepMain (moves : MainStep call pool reply next) : EndInv call next := by
  intro returned
  cases moves with
  | take main here some next =>
    rcases next with ⟨-, same⟩ | ⟨-, same⟩ <;> rw [same] at returned
    · cases returned
    · dsimp only at returned
      split at returned <;> cases returned
  | test main version here runs =>
    rcases here with ⟨-, same | same⟩ | ⟨-, same⟩ <;> rw [same] at returned <;> cases returned
  | leave version here over_ => cases returned
  | progress here =>
    dsimp only at returned
    split at returned <;> cases returned
  | failed here =>
    dsimp only at returned
    split at returned <;> cases returned
  | finish here ended => exact ended

end EndInv

/-- What is known in every reachable state. -/
theorem Reached.inv (reached : Reached call pool) :
    LockInv call pool ∧ UnitInv call pool ∧ EndInv call pool := by
  apply Reachable.invariant ?_ ?_ reached
  · rintro _ rfl
    exact ⟨LockInv.start call, UnitInv.start call, fun returned => by cases returned⟩
  · rintro pool next ⟨locked, units, ended⟩ ⟨action, moves⟩
    cases action with
    | worker t reply =>
      obtain ⟨inside, step⟩ := workerStep_of_step moves
      exact ⟨locked.stepWorker inside step, units.stepWorker locked inside step,
        ended.stepWorker inside step⟩
    | main reply =>
      have step := mainStep_of_step moves
      exact ⟨locked.stepMain step, units.stepMain step, EndInv.stepMain step⟩

/-- The worker is in a call of `start` or `allocate`. -/
def Calls (pool : VipsThreadpool) (t : Nat) : Prop :=
  (pool.thr t).point = .start ∨ (pool.thr t).point = .allocating

/-- The units handed out, with their thread states, as `work` should see them. -/
def due (pool : VipsThreadpool) : List (Option Nat × Option Nat) :=
  pool.handed.map fun entry => (entry.1, some entry.2)

/-- In all interleavings, whatever the callbacks return: the calls of `start` and `allocate` are
mutually exclusive, `vips_thread_allocate` is never called after stop was set, every work unit is
handed out once and worked on at most once and with the thread state that it was set up in, and
when `vips_threadpool_run` returns the units worked on are those handed out. -/
theorem units_worked (reached : Reached call pool) :
    (∀ t < call.nthr, ∀ t' < call.nthr, Calls pool t → Calls pool t' → t = t') ∧
    (∀ t < call.nthr, (pool.thr t).point = .allocate → pool.stop = false) ∧
    (∀ stop ∈ pool.calls, stop = false) ∧
    pool.handed.map Prod.snd = List.range pool.handed.length ∧
    pool.worked.Subperm pool.due ∧
    (pool.main = .returned → pool.worked.Perm pool.due) := by
  obtain ⟨locked, units, ended⟩ := reached.inv
  have inCall : ∀ t, Calls pool t → (pool.thr t).point.locked = true := by
    intro t calls
    rcases calls with here | here <;> rw [here] <;> rfl
  refine ⟨fun t inside t' inside' calls calls' => ?_, fun t inside here => ?_, locked.calls,
    units.numbered, ?_, fun returned => ?_⟩
  · exact locked.owned.unique inside inside' (inCall t calls) (inCall t' calls')
  · exact locked.runs t inside (.inl here)
  · rw [← Multiset.coe_le, due, units.balance]
    exact Multiset.le_add_right _ _
  · -- no worker has a unit when all have ended
    have none : ∀ t ∈ Finset.range call.nthr, (pool.thr t).inHand = 0 := by
      intro t member
      have inside := Finset.mem_range.mp member
      have empty := units.no_unit inside (by rw [ended returned t inside]; simp)
      rw [VipsThread.inHand, empty]
    have balance := units.balance
    rw [Finset.sum_eq_zero none, add_zero] at balance
    exact (Multiset.coe_eq_coe.mp balance).symm

/-- The steps of an interleaving reach a state. -/
theorem Reached.acts (reached : Reached call pool) {actions : List Action}
    (run : acts call pool actions = some next) : Reached call next := by
  induction actions generalizing pool with
  | nil =>
    obtain rfl := Option.some.inj run
    exact reached
  | cons action actions ih =>
    unfold VipsThreadpool.acts at run
    obtain ⟨middle, moves, rest⟩ := Option.bind_eq_some_iff.mp run
    exact ih (reached.step ⟨action, moves⟩) rest

/-- Two workers of the farm, and one work unit. -/
def pair : Call := ⟨.fastFlow, 2, Nat.two_pos, 1, true⟩

/-- A run in which the first worker gets the unit and then stops, and the second one comes late. -/
def pairRun : List Action :=
  [(14, .worker 0 .ok), (1, .worker 0 .stop), (4, .worker 0 .ok), (5, .worker 1 .ok),
    (7, .main .ok)].flatMap fun entry => List.replicate entry.1 entry.2

/-- The actions of two workers are a run. -/
theorem pair_run : (acts pair (VipsThreadpool.start pair) pairRun).isSome = true := by
  decide

/-- In the run the unit is worked on once. -/
theorem units_worked_sample : ∃ pool, Reached pair pool ∧ pool.main = .returned ∧
    pool.due = [(some 0, some 0)] ∧ pool.worked.Perm [(some 0, some 0)] := by
  have reached : Reached pair ((acts pair (VipsThreadpool.start pair) pairRun).get pair_run) :=
    Reached.acts (.start rfl) (Option.some_get pair_run).symm
  have returned : ((acts pair (VipsThreadpool.start pair) pairRun).get pair_run).main =
      .returned := by
    decide
  exact ⟨_, reached, returned, by decide, (units_worked reached).2.2.2.2.2 returned⟩

end VipsThreadpool

end P3arsec.Vips
