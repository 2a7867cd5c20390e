import P3arsec.Lib.Run

/-!
# The barrier on conditions

`Barrier::Wait` counts the threads that enter a round and lets them sleep on one condition until the
last one has come, and then counts those that leave and lets them wait on another condition until
the last one has left. Threads in excess of the round wait on the second condition too. A condition
gives a ticket to each thread that waits when all are notified, and a generation counter keeps the
tickets from threads that come later.
-/

namespace P3arsec.Bodytrack

open P3arsec.Lib

/-- `Condition`, with an event that stays set until it is reset. -/
structure Condition where
  nWaiting : Nat := 0
  nWakeupTickets : Nat := 0
  genCounter : Nat := 0
  /-- The event. -/
  c : Bool := false

namespace Condition

/-- `NotifyAll`. The generation counter is an `unsigned int`. -/
def notifyAll (cond : Condition) : Condition :=
  if cond.nWakeupTickets < cond.nWaiting then
    { cond with
      nWakeupTickets := cond.nWaiting
      genCounter := (cond.genCounter + 1) % 2 ^ 32
      c := true }
  else cond

/-- `Wait` up to the sleep. The thread keeps the generation. -/
def wait (cond : Condition) : Condition := { cond with nWaiting := cond.nWaiting + 1 }

/-- The test of a thread that the event has woken. -/
def DoRelease (cond : Condition) (myGeneration : Nat) : Prop :=
  0 < cond.nWakeupTickets ∧ cond.genCounter ≠ myGeneration

instance (cond : Condition) (myGeneration : Nat) : Decidable (cond.DoRelease myGeneration) :=
  inferInstanceAs (Decidable (_ ∧ _))

/-- `Wait` after the test. -/
def release (cond : Condition) : Condition :=
  { cond with
    nWaiting := cond.nWaiting - 1
    nWakeupTickets := cond.nWakeupTickets - 1
    c := if cond.nWakeupTickets - 1 = 0 then false else cond.c }

end Condition

/-- Where a thread is. A thread in a round carries the number of the round, which is not part of the
program. -/
inductive Thread where
  | outside
  /-- It waits on `CReset` before it enters a round. -/
  | surplus (myGeneration : Nat)
  /-- It waits on `CSleep`. -/
  | sleeping (myGeneration : Nat) (master : Bool) (round : Nat)
  /-- It waits on `CReset` before it returns. -/
  | leaving (myGeneration : Nat) (master : Bool) (round : Nat)

/-- The state of the barrier. A round ends when `countSleep` is set back. The last three fields only
record what happens. -/
structure State where
  countSleep : Nat
  countReset : Nat
  cSleep : Condition
  cReset : Condition
  threads : Nat → Thread
  /-- The number of the round. -/
  round : Nat
  /-- The threads that have entered a round, and whether they are its master. -/
  entered : Nat → List (Nat × Bool)
  /-- The threads that have returned from a round, and what `Wait` returned. -/
  returned : Nat → List (Nat × Bool)

namespace Barrier

/-- The state after construction. -/
def initial : State where
  countSleep := 0
  countReset := 0
  cSleep := {}
  cReset := {}
  threads := fun _ => .outside
  round := 0
  entered := fun _ => []
  returned := fun _ => []

/-- A thread returns from `Wait`. -/
def record (t round : Nat) (master : Bool) (s : State) : State :=
  { s with returned := Function.update s.returned round (s.returned round ++ [(t, master)]) }

/-- `Wait` from where a thread leaves the barrier. -/
def leave (n t round : Nat) (master : Bool) (s : State) : State :=
  let s := { s with countReset := s.countReset + 1 }
  if s.countReset < n then
    { s with
      cReset := s.cReset.wait
      threads := Function.update s.threads t (.leaving s.cReset.genCounter master round) }
  else
    record t round master
      { s with countSleep := 0, cReset := s.cReset.notifyAll, round := s.round + 1 }

/-- `Wait` from where a thread enters the barrier. -/
def enter (n t : Nat) (s : State) : State :=
  let master := decide (s.countSleep = 0)
  let s :=
    { s with
      countSleep := s.countSleep + 1
      entered := Function.update s.entered s.round (s.entered s.round ++ [(t, master)]) }
  if s.countSleep < n then
    { s with
      cSleep := s.cSleep.wait
      threads := Function.update s.threads t (.sleeping s.cSleep.genCounter master s.round) }
  else leave n t s.round master { s with countReset := 0, cSleep := s.cSleep.notifyAll }

/-- `Wait` from the loop that keeps threads in excess of the round out. -/
def arrive (n t : Nat) (s : State) : State :=
  if n ≤ s.countSleep then
    { s with
      cReset := s.cReset.wait
      threads := Function.update s.threads t (.surplus s.cReset.genCounter) }
  else enter n t s

/-- What happens to a thread. -/
inductive Event where
  /-- It calls `Wait`. -/
  | call (t : Nat)
  /-- An event has woken it. -/
  | wake (t : Nat)

/-- A thread is on its way, and waits for nothing. -/
def start (t : Nat) (s : State) : State :=
  { s with threads := Function.update s.threads t .outside }

/-- What an event does. A thread that finds no ticket for it goes back to sleep. -/
def act (n : Nat) : Event → State → Option State
  | .call t, s =>
    match s.threads t with
    | .outside => some (arrive n t s)
    | _ => none
  | .wake t, s =>
    match s.threads t with
    | .outside => none
    | .surplus myGeneration =>
      if s.cReset.c then
        some
          (if s.cReset.DoRelease myGeneration then
            arrive n t (start t { s with cReset := s.cReset.release })
          else s)
      else none
    | .sleeping myGeneration master round =>
      if s.cSleep.c then
        some
          (if s.cSleep.DoRelease myGeneration then
            leave n t round master (start t { s with cSleep := s.cSleep.release })
          else s)
      else none
    | .leaving myGeneration master round =>
      if s.cReset.c then
        some
          (if s.cReset.DoRelease myGeneration then
            record t round master (start t { s with cReset := s.cReset.release })
          else s)
      else none

/-- A step of a thread. -/
def Step (n : Nat) (s s' : State) : Prop := ∃ event, act n event s = some s'

/-- The states of a barrier for `n` threads. -/
def Reaches (n : Nat) : State → Prop := Reachable (· = initial) (Step n)

end Barrier

namespace Thread

/-- The generation of a thread on `CReset`. -/
def resetGeneration : Thread → Option Nat
  | surplus myGeneration => some myGeneration
  | leaving myGeneration _ _ => some myGeneration
  | _ => none

/-- The generation of a thread on `CSleep`. -/
def sleepGeneration : Thread → Option Nat
  | sleeping myGeneration _ _ => some myGeneration
  | _ => none

/-- The round that a thread is in, and whether it is the master. -/
def inside : Thread → Option (Nat × Bool)
  | sleeping _ master round => some (round, master)
  | leaving _ master round => some (round, master)
  | _ => none

/-- The thread has a wake-up pending. -/
def Pending (s : State) : Thread → Prop
  | outside => False
  | surplus myGeneration => s.cReset.c = true ∧ s.cReset.DoRelease myGeneration
  | sleeping myGeneration _ _ => s.cSleep.c = true ∧ s.cSleep.DoRelease myGeneration
  | leaving myGeneration _ _ => s.cReset.c = true ∧ s.cReset.DoRelease myGeneration

end Thread

namespace Barrier

/-- What the barrier promises. -/
structure Correct (n : Nat) (s : State) : Prop where
  /-- No thread returns from a round before `n` threads have entered it. -/
  waits : ∀ r, s.returned r ≠ [] → (s.entered r).length = n
  /-- No more than `n` threads enter a round. -/
  entered_le : ∀ r, (s.entered r).length ≤ n
  /-- They are different threads. -/
  entered_nodup : ∀ r, ((s.entered r).map Prod.fst).Nodup
  /-- The rounds before the last one have been entered by `n` threads. -/
  entered_eq : ∀ r, (∃ later, r < later ∧ s.entered later ≠ []) → (s.entered r).length = n
  /-- A thread returns from a round once, after it has entered it. -/
  returned_subperm : ∀ r, (s.returned r).Subperm (s.entered r)
  /-- One thread of each round is its master. -/
  master : ∀ r, s.entered r ≠ [] → (s.entered r).countP (·.2) = 1
  /-- The threads of a round do not all sleep without a wake-up pending. -/
  awake : ∀ r, (s.entered r).length = n →
    ¬∀ t master, (t, master) ∈ s.entered r →
      (s.threads t).inside = some (r, master) ∧ ¬(s.threads t).Pending s

/-- The counters of the conditions. The threads on `CReset` are those that have been notified and
those that have come since, and none has come since the round began to fill. A thread that is on its
way is in no set. -/
structure Counts (n : Nat) (s : State) (running : Option Nat) (stale fresh sleepers : Finset Nat) :
    Prop where
  count_le : s.countSleep ≤ n
  outside : ∀ t ∈ running, s.threads t = .outside
  disjoint : Disjoint stale fresh
  mem_reset : ∀ t, t ∈ stale ∨ t ∈ fresh ↔ (s.threads t).resetGeneration.isSome
  mem_sleep : ∀ t, t ∈ sleepers ↔ (s.threads t).sleepGeneration.isSome
  reset_waiting : s.cReset.nWaiting = stale.card + fresh.card
  reset_tickets : s.cReset.nWakeupTickets = stale.card
  reset_set : s.cReset.c = decide (0 < s.cReset.nWakeupTickets)
  fresh_generation : ∀ t ∈ fresh, (s.threads t).resetGeneration = some s.cReset.genCounter
  sleep_waiting : s.cSleep.nWaiting = sleepers.card
  sleep_set : s.cSleep.c = decide (0 < s.cSleep.nWakeupTickets)
  sleep_generation : s.cSleep.genCounter < 2 ^ 32
  /-- While the round fills nobody has been notified, and nobody leaves. -/
  filling : s.countSleep < n → running = none ∧ fresh = ∅ ∧ s.cSleep.nWakeupTickets = 0 ∧
    sleepers.card = s.countSleep ∧
    ∀ t ∈ sleepers, (s.threads t).sleepGeneration = some s.cSleep.genCounter
  /-- While the round drains everybody on `CSleep` has been notified. -/
  draining : s.countSleep = n → s.cSleep.nWakeupTickets = sleepers.card ∧
    s.countReset + sleepers.card + running.toList.length = n ∧
    (running = none → 0 < sleepers.card) ∧
    ∀ t ∈ sleepers, (s.threads t).sleepGeneration ≠ some s.cSleep.genCounter

/-- The threads of the rounds. -/
structure Rounds (n : Nat) (s : State) (running : Option Nat) (stale sleepers : Finset Nat) :
    Prop where
  now : (s.entered s.round).length = s.countSleep
  past : ∀ r < s.round, (s.entered r).length = n ∧ s.returned r ≠ []
  future : ∀ r, s.round < r → s.entered r = []
  once : ∀ r, ((s.entered r).map Prod.fst).Nodup
  master : ∀ r, (s.entered r).countP (·.2) = min 1 (s.entered r).length
  /-- A thread that has entered the round is in it. -/
  place : ∀ t m, (t, m) ∈ s.entered s.round →
    running = some t ∨ (s.threads t).inside = some (s.round, m)
  inside_mem : ∀ t r m, (s.threads t).inside = some (r, m) → (t, m) ∈ s.entered r ∧ r ≤ s.round
  sleep_round : ∀ t ∈ sleepers, ∃ m, (s.threads t).inside = some (s.round, m)
  /-- A thread that has been notified on `CReset` is in an old round. -/
  stale_round : ∀ t ∈ stale, ∀ r m, (s.threads t).inside = some (r, m) → r < s.round
  returned_mem : ∀ r t m, (t, m) ∈ s.returned r →
    (t, m) ∈ s.entered r ∧ r < s.round ∧ (s.threads t).inside ≠ some (r, m)
  returned_once : ∀ r, (s.returned r).Nodup

/-- What holds in every state. -/
structure Inv (n : Nat) (s : State) (running : Option Nat) (stale fresh sleepers : Finset Nat) :
    Prop where
  counts : Counts n s running stale fresh sleepers
  rounds : Rounds n s running stale sleepers

variable {n : Nat} {s s' : State} {stale fresh sleepers : Finset Nat}

/-- The invariant holds at the start. -/
theorem initial_inv (positive : 0 < n) : Inv n initial none ∅ ∅ ∅ := by
  constructor
  · constructor <;> simp [initial, Thread.resetGeneration, Thread.sleepGeneration, positive.ne]
  · constructor <;> simp [initial, Thread.inside]

/-- The promise, from the invariant. -/
theorem Inv.toCorrect (positive : 0 < n) (inv : Inv n s none stale fresh sleepers) :
    Correct n s := by
  have le : ∀ r, (s.entered r).length ≤ n := by
    intro r
    rcases lt_trichotomy r s.round with past | rfl | future
    · exact (inv.rounds.past r past).1.le
    · rw [inv.rounds.now]
      exact inv.counts.count_le
    · simp [inv.rounds.future r future]
  constructor
  · intro r some
    obtain ⟨⟨t, m⟩, member⟩ := List.exists_mem_of_ne_nil _ some
    exact (inv.rounds.past r (inv.rounds.returned_mem r t m member).2.1).1
  · exact le
  · exact inv.rounds.once
  · rintro r ⟨later, less, some⟩
    refine (inv.rounds.past r ?_).1
    by_contra late
    exact some (inv.rounds.future later (by omega))
  · intro r
    refine List.subperm_of_subset (inv.rounds.returned_once r) ?_
    rintro ⟨t, m⟩ member
    exact (inv.rounds.returned_mem r t m member).1
  · intro r some
    rw [inv.rounds.master r]
    have long := List.length_pos_of_ne_nil some
    omega
  · intro r full stuck
    rcases lt_trichotomy r s.round with past | rfl | future
    · obtain ⟨⟨t, m⟩, member⟩ := List.exists_mem_of_ne_nil _ (inv.rounds.past r past).2
      obtain ⟨entered, -, gone⟩ := inv.rounds.returned_mem r t m member
      exact gone (stuck t m entered).1
    · rw [inv.rounds.now] at full
      obtain ⟨tickets, -, some, notified⟩ := inv.counts.draining full
      obtain ⟨t, member⟩ := Finset.card_pos.mp (some rfl)
      obtain ⟨m, here⟩ := inv.rounds.sleep_round t member
      refine (stuck t m (inv.rounds.inside_mem t _ m here).1).2 ?_
      have asleep := (inv.counts.mem_sleep t).mp member
      have other := notified t member
      have set := inv.counts.sleep_set
      have few := some rfl
      cases thread : s.threads t with
      | sleeping g m' r' =>
        rw [thread, Thread.sleepGeneration] at other
        refine ⟨by rw [set, tickets]; simpa using few, by omega, ?_⟩
        rintro rfl
        exact other rfl
      | _ => simp [thread, Thread.sleepGeneration] at asleep
    · rw [inv.rounds.future r future] at full
      simp only [List.length_nil] at full
      omega

/-- A thread that is nowhere is in no set. -/
theorem Counts.notMem {running : Option Nat} (counts : Counts n s running stale fresh sleepers)
    {t : Nat} (outside : s.threads t = .outside) : t ∉ stale ∧ t ∉ fresh ∧ t ∉ sleepers := by
  have reset := counts.mem_reset t
  have sleep := counts.mem_sleep t
  simp only [outside, Thread.resetGeneration, Thread.sleepGeneration, Option.isSome_none,
    Bool.false_eq_true, iff_false, not_or] at reset sleep
  exact ⟨reset.1, reset.2, sleep⟩

/-- The threads on a condition, after one thread has gone elsewhere. -/
theorem mem_update (generation : Thread → Option Nat) {threads : Nat → Thread} {t : Nat}
    {pc : Thread} {on on' : Nat → Prop} (before : ∀ u, on u ↔ (generation (threads u)).isSome)
    (here : on' t ↔ (generation pc).isSome) (others : ∀ u, u ≠ t → (on' u ↔ on u)) (u : Nat) :
    on' u ↔ (generation (Function.update threads t pc u)).isSome := by
  by_cases same : u = t
  · subst same
    rwa [Function.update_self]
  · rw [Function.update_of_ne same, others u same]
    exact before u

/-- A thread that is nowhere comes to wait on `CReset`, while the round drains. -/
theorem Counts.wait {running : Option Nat} {t countReset : Nat} {pc : Thread}
    (counts : Counts n s running stale fresh sleepers) (outside : s.threads t = .outside)
    (full : s.countSleep = n) (generation : pc.resetGeneration = some s.cReset.genCounter)
    (awake : pc.sleepGeneration = none) (count : countReset + sleepers.card = n)
    (some_left : 0 < sleepers.card) :
    Counts n
      { s with countReset, cReset := s.cReset.wait, threads := Function.update s.threads t pc }
      none stale (insert t fresh) sleepers := by
  obtain ⟨notStale, notFresh, notSleeping⟩ := counts.notMem outside
  obtain ⟨tickets, -, -, notified⟩ := counts.draining full
  constructor
  · exact counts.count_le
  · simp
  · exact Finset.disjoint_insert_right.mpr ⟨notStale, counts.disjoint⟩
  · refine mem_update Thread.resetGeneration counts.mem_reset (by simp [generation]) ?_
    intro u other
    simp [other]
  · exact mem_update Thread.sleepGeneration counts.mem_sleep (by simp [awake, notSleeping])
      fun _ _ => Iff.rfl
  · have waiting := counts.reset_waiting
    rw [Finset.card_insert_of_notMem notFresh]
    simp only [Condition.wait]
    omega
  · exact counts.reset_tickets
  · exact counts.reset_set
  · intro u member
    dsimp only [Condition.wait]
    by_cases same : u = t
    · subst same
      rw [Function.update_self, generation]
    · rw [Function.update_of_ne same]
      exact counts.fresh_generation u ((Finset.mem_insert.mp member).resolve_left same)
  · exact counts.sleep_waiting
  · exact counts.sleep_set
  · exact counts.sleep_generation
  · intro filling
    exact absurd full filling.ne
  · intro _
    refine ⟨tickets, count, fun _ => some_left, ?_⟩
    intro u member
    dsimp only
    rw [Function.update_of_ne (by rintro rfl; exact notSleeping member)]
    exact notified u member

/-- The conditions and the number of those that leave do not matter to the rounds. -/
theorem Rounds.conditions {running : Option Nat} (rounds : Rounds n s running stale sleepers)
    (countReset : Nat) (cReset cSleep : Condition) :
    Rounds n { s with countReset, cReset, cSleep } running stale sleepers :=
  ⟨rounds.now, rounds.past, rounds.future, rounds.once, rounds.master, rounds.place,
    rounds.inside_mem, rounds.sleep_round, rounds.stale_round, rounds.returned_mem,
    rounds.returned_once⟩

/-- A thread on its way in the round comes to wait in it. -/
theorem Rounds.settle {t : Nat} {m : Bool} {pc : Thread} {asleep : Finset Nat}
    (rounds : Rounds n s (some t) stale sleepers) (entered : (t, m) ∈ s.entered s.round)
    (here : pc.inside = some (s.round, m)) (notStale : t ∉ stale)
    (others : ∀ u ∈ asleep, u ≠ t → u ∈ sleepers) :
    Rounds n { s with threads := Function.update s.threads t pc } none stale asleep := by
  constructor
  · exact rounds.now
  · exact rounds.past
  · exact rounds.future
  · exact rounds.once
  · exact rounds.master
  · intro u m' member
    refine .inr ?_
    dsimp only
    by_cases same : u = t
    · subst same
      have one := List.inj_on_of_nodup_map (rounds.once s.round) member entered rfl
      rw [Function.update_self, here, (Prod.mk.inj one).2]
    · rw [Function.update_of_ne same]
      exact (rounds.place u m' member).resolve_left fun running =>
        same (Option.some.inj running).symm
  · intro u r m' inside
    dsimp only at inside
    by_cases same : u = t
    · subst same
      rw [Function.update_self, here] at inside
      obtain ⟨rfl, rfl⟩ := Prod.mk.inj (Option.some.inj inside)
      exact ⟨entered, le_rfl⟩
    · rw [Function.update_of_ne same] at inside
      exact rounds.inside_mem u r m' inside
  · intro u member
    dsimp only
    by_cases same : u = t
    · subst same
      exact ⟨m, by rw [Function.update_self, here]⟩
    · rw [Function.update_of_ne same]
      exact rounds.sleep_round u (others u member same)
  · intro u member r m' inside
    dsimp only at inside ⊢
    rw [Function.update_of_ne (by rintro rfl; exact notStale member)] at inside
    exact rounds.stale_round u member r m' inside
  · intro r u m' member
    obtain ⟨known, old, gone⟩ := rounds.returned_mem r u m' member
    refine ⟨known, old, ?_⟩
    dsimp only
    by_cases same : u = t
    · subst same
      rw [Function.update_self, here]
      intro equal
      exact old.ne (Prod.mk.inj (Option.some.inj equal)).1.symm
    · rw [Function.update_of_ne same]
      exact gone
  · exact rounds.returned_once

/-- A thread goes on. It has been in an old round, or it is on its way in this one. -/
theorem Rounds.start {t : Nat} {running : Option Nat} {among asleep : Finset Nat}
    (rounds : Rounds n s none stale sleepers)
    (away : running = some t ∨ ∀ m, (s.threads t).inside ≠ some (s.round, m))
    (among_le : among ⊆ stale) (asleep_le : asleep ⊆ sleepers) (awake : t ∉ asleep) :
    Rounds n (start t s) running among asleep := by
  constructor
  · exact rounds.now
  · exact rounds.past
  · exact rounds.future
  · exact rounds.once
  · exact rounds.master
  · intro u m entered
    have inside := (rounds.place u m entered).resolve_left nofun
    by_cases same : u = t
    · subst same
      exact .inl (away.resolve_right fun other => other m inside)
    · refine .inr ?_
      simp only [Barrier.start]
      rwa [Function.update_of_ne same]
  · intro u r m inside
    simp only [Barrier.start] at inside
    by_cases same : u = t
    · subst same
      simp [Thread.inside] at inside
    · rw [Function.update_of_ne same] at inside
      exact rounds.inside_mem u r m inside
  · intro u member
    simp only [Barrier.start]
    rw [Function.update_of_ne (by rintro rfl; exact awake member)]
    exact rounds.sleep_round u (asleep_le member)
  · intro u member r m inside
    simp only [Barrier.start] at inside ⊢
    by_cases same : u = t
    · subst same
      simp [Thread.inside] at inside
    · rw [Function.update_of_ne same] at inside
      exact rounds.stale_round u (among_le member) r m inside
  · intro r u m returned
    obtain ⟨known, old, gone⟩ := rounds.returned_mem r u m returned
    refine ⟨known, old, ?_⟩
    simp only [Barrier.start]
    by_cases same : u = t
    · subst same
      simp [Thread.inside]
    · rwa [Function.update_of_ne same]
  · exact rounds.returned_once

/-- A thread leaves the barrier and others are still in it. -/
theorem leave_wait {t : Nat} {master : Bool} (inv : Inv n s (some t) stale fresh sleepers)
    (full : s.countSleep = n) (entered : (t, master) ∈ s.entered s.round)
    (more : s.countReset + 1 < n) :
    Inv n
      { s with
        countReset := s.countReset + 1
        cReset := s.cReset.wait
        threads := Function.update s.threads t (.leaving s.cReset.genCounter master s.round) }
      none stale (insert t fresh) sleepers := by
  obtain ⟨counts, rounds⟩ := inv
  have outside := counts.outside t rfl
  obtain ⟨-, count, -, -⟩ := counts.draining full
  simp only [Option.toList_some, List.length_singleton] at count
  constructor
  · exact counts.wait outside full rfl rfl (by omega) (by omega)
  · exact (rounds.settle entered rfl (counts.notMem outside).1 fun _ member _ => member).conditions
      _ _ _

/-- The last thread leaves the barrier. -/
theorem leave_last {t : Nat} {master : Bool} (inv : Inv n s (some t) stale fresh sleepers)
    (full : s.countSleep = n) (entered : (t, master) ∈ s.entered s.round)
    (last : ¬s.countReset + 1 < n) :
    Inv n
      (record t s.round master
        { s with
          countReset := s.countReset + 1
          countSleep := 0
          cReset := s.cReset.notifyAll
          round := s.round + 1 })
      none (stale ∪ fresh) ∅ ∅ := by
  obtain ⟨counts, rounds⟩ := inv
  have outside := counts.outside t rfl
  obtain ⟨tickets, count, -, -⟩ := counts.draining full
  simp only [Option.toList_some, List.length_singleton] at count
  have positive : 0 < n := by omega
  have none : sleepers.card = 0 := by omega
  have empty : sleepers = ∅ := Finset.card_eq_zero.mp none
  subst empty
  have united : (stale ∪ fresh).card = stale.card + fresh.card :=
    Finset.card_union_of_disjoint counts.disjoint
  have waiting := counts.reset_waiting
  have given := counts.reset_tickets
  constructor
  · constructor
    · exact Nat.zero_le n
    · simp
    · exact Finset.disjoint_empty_right _
    · intro u
      simp only [Finset.notMem_empty, or_false, Finset.mem_union]
      exact counts.mem_reset u
    · exact counts.mem_sleep
    · simp only [record, Condition.notifyAll, Finset.card_empty]
      split
      · dsimp only
        omega
      · omega
    · simp only [record, Condition.notifyAll]
      split
      · dsimp only
        omega
      · omega
    · simp only [record, Condition.notifyAll]
      split
      · rename_i fewer
        dsimp only
        rw [eq_comm, decide_eq_true_eq]
        omega
      · exact counts.reset_set
    · simp
    · exact counts.sleep_waiting
    · exact counts.sleep_set
    · exact counts.sleep_generation
    · intro _
      exact ⟨rfl, rfl, by rw [← none, ← tickets]; rfl, rfl, by simp⟩
    · intro now
      exact absurd now positive.ne
  · have gone : ∀ u m, (u, m) ∉ s.returned s.round := by
      intro u m member
      exact lt_irrefl _ (rounds.returned_mem s.round u m member).2.1
    constructor
    · simp [record, rounds.future]
    · intro r less
      have less : r < s.round + 1 := less
      rcases Nat.lt_succ_iff_lt_or_eq.mp less with old | rfl
      · obtain ⟨known, some⟩ := rounds.past r old
        refine ⟨known, ?_⟩
        simp only [record]
        rwa [Function.update_of_ne old.ne]
      · refine ⟨rounds.now.trans full, ?_⟩
        simp [record]
    · intro r less
      have less : s.round + 1 < r := less
      exact rounds.future r (by omega)
    · exact rounds.once
    · exact rounds.master
    · intro u m member
      simp [record, rounds.future] at member
    · intro u r m inside
      obtain ⟨known, le⟩ := rounds.inside_mem u r m inside
      exact ⟨known, le.trans (Nat.le_succ _)⟩
    · simp
    · intro u member r m inside
      exact Nat.lt_succ_of_le (rounds.inside_mem u r m inside).2
    · intro r u m member
      simp only [record] at member ⊢
      by_cases now : r = s.round
      · subst now
        rw [Function.update_self, List.mem_append, List.mem_singleton] at member
        obtain ⟨rfl, rfl⟩ := Prod.mk.inj (member.resolve_left (gone u m))
        refine ⟨entered, Nat.lt_succ_self _, ?_⟩
        simp [outside, Thread.inside]
      · rw [Function.update_of_ne now] at member
        obtain ⟨known, old, away⟩ := rounds.returned_mem r u m member
        exact ⟨known, old.trans (Nat.lt_succ_self _), away⟩
    · intro r
      simp only [record]
      by_cases now : r = s.round
      · subst now
        have first : s.returned s.round = [] := List.eq_nil_iff_forall_not_mem.mpr
          fun pair => gone pair.1 pair.2
        rw [Function.update_self, first]
        exact List.nodup_singleton _
      · rw [Function.update_of_ne now]
        exact rounds.returned_once r

/-- A thread leaves the barrier. -/
theorem leave_inv {t : Nat} {master : Bool} (inv : Inv n s (some t) stale fresh sleepers)
    (full : s.countSleep = n) (entered : (t, master) ∈ s.entered s.round) :
    ∃ stale fresh sleepers, Inv n (leave n t s.round master s) none stale fresh sleepers := by
  unfold leave
  dsimp only
  split
  · exact ⟨_, _, _, leave_wait inv full entered ‹_›⟩
  · exact ⟨_, _, _, leave_last inv full entered ‹_›⟩

/-- The record of a round after a thread has entered it. -/
theorem entered_append {t : Nat} (rounds : Rounds n s none stale sleepers)
    (outside : s.threads t = .outside) :
    let entered := s.entered s.round ++ [(t, decide (s.countSleep = 0))]
    entered.length = s.countSleep + 1 ∧ (entered.map Prod.fst).Nodup ∧
      entered.countP (·.2) = min 1 entered.length := by
  have now := rounds.now
  have master := rounds.master s.round
  dsimp only
  refine ⟨by simp [now], ?_, ?_⟩
  · rw [List.map_append, List.nodup_append]
    refine ⟨rounds.once s.round, List.nodup_singleton _, ?_⟩
    intro u before u' here
    obtain ⟨⟨v, m⟩, member, rfl⟩ := List.mem_map.mp before
    obtain rfl : u' = t := by simpa using here
    rintro rfl
    rcases rounds.place _ m member with running | inside
    · cases running
    · have here : s.threads v = .outside := outside
      simp [here, Thread.inside] at inside
  · rw [List.countP_append, master, now, List.length_append, now]
    by_cases first : s.countSleep = 0
    · simp [first]
    · simp only [first, decide_false, List.countP_singleton, List.length_singleton]
      simp
      omega

/-- A thread enters the round and is on its way in it. -/
theorem Rounds.enter {t : Nat} (rounds : Rounds n s none stale sleepers)
    (outside : s.threads t = .outside) :
    Rounds n
      { s with
        countSleep := s.countSleep + 1
        entered := Function.update s.entered s.round
          (s.entered s.round ++ [(t, decide (s.countSleep = 0))]) }
      (some t) stale sleepers := by
  obtain ⟨length, once, master⟩ := entered_append rounds outside
  constructor
  · simpa using length
  · intro r less
    dsimp only at less ⊢
    rw [Function.update_of_ne less.ne]
    exact rounds.past r less
  · intro r less
    dsimp only at less ⊢
    rw [Function.update_of_ne less.ne']
    exact rounds.future r less
  · intro r
    dsimp only
    rw [Function.update_apply]
    split
    · exact once
    · exact rounds.once r
  · intro r
    dsimp only
    rw [Function.update_apply]
    split
    · exact master
    · exact rounds.master r
  · intro u m member
    simp only [Function.update_self, List.mem_append, List.mem_singleton] at member
    rcases member with before | here
    · exact .inr ((rounds.place u m before).resolve_left nofun)
    · exact .inl (by rw [(Prod.mk.inj here).1])
  · intro u r m inside
    obtain ⟨known, le⟩ := rounds.inside_mem u r m inside
    refine ⟨?_, le⟩
    dsimp only
    rw [Function.update_apply]
    split
    · rename_i now
      subst now
      exact List.mem_append_left _ known
    · exact known
  · exact rounds.sleep_round
  · exact rounds.stale_round
  · intro r u m member
    obtain ⟨known, old, gone⟩ := rounds.returned_mem r u m member
    dsimp only
    rw [Function.update_of_ne old.ne]
    exact ⟨known, old, gone⟩
  · exact rounds.returned_once

/-- A thread enters the barrier and sleeps. -/
theorem enter_sleep {t : Nat} (inv : Inv n s none stale fresh sleepers)
    (outside : s.threads t = .outside) (more : s.countSleep + 1 < n) :
    Inv n
      { s with
        countSleep := s.countSleep + 1
        entered := Function.update s.entered s.round
          (s.entered s.round ++ [(t, decide (s.countSleep = 0))])
        cSleep := s.cSleep.wait
        threads := Function.update s.threads t
          (.sleeping s.cSleep.genCounter (decide (s.countSleep = 0)) s.round) }
      none stale fresh (insert t sleepers) := by
  obtain ⟨counts, rounds⟩ := inv
  obtain ⟨notStale, notFresh, notSleeping⟩ := counts.notMem outside
  obtain ⟨-, empty, tickets, asleep, same⟩ := counts.filling (by omega)
  constructor
  · constructor
    · exact more.le
    · simp
    · exact counts.disjoint
    · exact mem_update Thread.resetGeneration counts.mem_reset
        (by simp [Thread.resetGeneration, notStale, notFresh]) fun _ _ => Iff.rfl
    · refine mem_update Thread.sleepGeneration counts.mem_sleep
        (by simp [Thread.sleepGeneration]) ?_
      intro u other
      simp [other]
    · exact counts.reset_waiting
    · exact counts.reset_tickets
    · exact counts.reset_set
    · intro u member
      simp [empty] at member
    · have waiting := counts.sleep_waiting
      rw [Finset.card_insert_of_notMem notSleeping]
      simp only [Condition.wait]
      omega
    · exact counts.sleep_set
    · exact counts.sleep_generation
    · intro _
      refine ⟨rfl, empty, tickets, ?_, ?_⟩
      · rw [Finset.card_insert_of_notMem notSleeping, asleep]
      · intro u member
        dsimp only [Condition.wait]
        by_cases this : u = t
        · subst this
          simp [Thread.sleepGeneration]
        · rw [Function.update_of_ne this]
          exact same u ((Finset.mem_insert.mp member).resolve_left this)
    · intro full
      exact absurd full more.ne
  · have entered : (t, decide (s.countSleep = 0)) ∈ Function.update s.entered s.round
        (s.entered s.round ++ [(t, decide (s.countSleep = 0))]) s.round := by simp
    exact ((rounds.enter outside).settle entered rfl notStale fun u member other =>
      (Finset.mem_insert.mp member).resolve_left other).conditions _ _ _

/-- The last thread enters the barrier and wakes the others. -/
theorem enter_last {t : Nat} (inv : Inv n s none stale fresh sleepers)
    (outside : s.threads t = .outside) (last : s.countSleep + 1 = n) :
    Inv n
      { s with
        countSleep := s.countSleep + 1
        entered := Function.update s.entered s.round
          (s.entered s.round ++ [(t, decide (s.countSleep = 0))])
        countReset := 0
        cSleep := s.cSleep.notifyAll }
      (some t) stale fresh sleepers := by
  obtain ⟨counts, rounds⟩ := inv
  obtain ⟨-, empty, tickets, asleep, same⟩ := counts.filling (by omega)
  have waiting := counts.sleep_waiting
  constructor
  · constructor
    · exact last.le
    · rintro _ ⟨⟩
      exact outside
    · exact counts.disjoint
    · exact counts.mem_reset
    · exact counts.mem_sleep
    · exact counts.reset_waiting
    · exact counts.reset_tickets
    · exact counts.reset_set
    · exact counts.fresh_generation
    · simp only [Condition.notifyAll]
      split <;> exact waiting
    · simp only [Condition.notifyAll]
      split
      · rename_i fewer
        dsimp only
        rw [eq_comm, decide_eq_true_eq]
        omega
      · exact counts.sleep_set
    · simp only [Condition.notifyAll]
      split
      · exact Nat.mod_lt _ (by decide)
      · exact counts.sleep_generation
    · intro filling
      exact absurd last filling.ne
    · intro _
      refine ⟨?_, by simp; omega, nofun, ?_⟩
      · simp only [Condition.notifyAll]
        split
        · exact waiting
        · omega
      · intro u member
        have some := Finset.card_pos.mpr ⟨u, member⟩
        have small := counts.sleep_generation
        dsimp only
        rw [same u member, Condition.notifyAll, if_pos (by omega)]
        simp only [ne_eq, Option.some.injEq]
        omega
  · exact (rounds.enter outside).conditions _ _ _

/-- A thread enters the barrier. -/
theorem enter_inv {t : Nat} (inv : Inv n s none stale fresh sleepers)
    (outside : s.threads t = .outside) (room : s.countSleep < n) :
    ∃ stale fresh sleepers, Inv n (enter n t s) none stale fresh sleepers := by
  unfold enter
  dsimp only
  split
  · exact ⟨_, _, _, enter_sleep inv outside ‹_›⟩
  · have last : s.countSleep + 1 = n := by omega
    exact leave_inv (enter_last inv outside last) last (by simp)

/-- A thread in excess of the round waits. -/
theorem surplus_inv {t : Nat} (inv : Inv n s none stale fresh sleepers)
    (outside : s.threads t = .outside) (full : n ≤ s.countSleep) :
    Inv n
      { s with
        cReset := s.cReset.wait
        threads := Function.update s.threads t (.surplus s.cReset.genCounter) }
      none stale (insert t fresh) sleepers := by
  obtain ⟨counts, rounds⟩ := inv
  have now : s.countSleep = n := le_antisymm counts.count_le full
  obtain ⟨-, count, some_left, -⟩ := counts.draining now
  simp only [Option.toList_none, List.length_nil] at count
  have inside : ∀ u, (Function.update s.threads t (.surplus s.cReset.genCounter) u).inside =
      (s.threads u).inside := by
    intro u
    by_cases same : u = t
    · subst same
      simp [Thread.inside, outside]
    · rw [Function.update_of_ne same]
  constructor
  · exact counts.wait outside now rfl rfl (by omega) (some_left rfl)
  · constructor
    · exact rounds.now
    · exact rounds.past
    · exact rounds.future
    · exact rounds.once
    · exact rounds.master
    · intro u m member
      rw [inside u]
      exact rounds.place u m member
    · intro u r m
      rw [inside u]
      exact rounds.inside_mem u r m
    · intro u
      rw [inside u]
      exact rounds.sleep_round u
    · intro u member r m
      rw [inside u]
      exact rounds.stale_round u member r m
    · intro r u m
      rw [inside u]
      exact rounds.returned_mem r u m
    · exact rounds.returned_once

/-- A thread comes to the barrier. -/
theorem arrive_inv {t : Nat} (inv : Inv n s none stale fresh sleepers)
    (outside : s.threads t = .outside) :
    ∃ stale fresh sleepers, Inv n (arrive n t s) none stale fresh sleepers := by
  unfold arrive
  split
  · exact ⟨_, _, _, surplus_inv inv outside ‹_›⟩
  · exact enter_inv inv outside (not_le.mp ‹_›)

/-- A thread is released from `CReset`. It has been notified. -/
theorem release_reset {t g : Nat} (inv : Inv n s none stale fresh sleepers)
    (waits : (s.threads t).resetGeneration = some g) (released : s.cReset.DoRelease g) :
    t ∈ stale ∧ Inv n (start t { s with cReset := s.cReset.release }) none (stale.erase t) fresh
      sleepers := by
  obtain ⟨counts, rounds⟩ := inv
  obtain ⟨some, newer⟩ := released
  have notFresh : t ∉ fresh := by
    intro member
    rw [counts.fresh_generation t member] at waits
    exact newer (Option.some.inj waits)
  have member : t ∈ stale :=
    ((counts.mem_reset t).mpr (by rw [waits]; rfl)).resolve_right notFresh
  have notSleeping : t ∉ sleepers := by
    rw [counts.mem_sleep t]
    cases thread : s.threads t <;> simp [thread, Thread.resetGeneration] at waits <;>
      simp [Thread.sleepGeneration]
  have waiting := counts.reset_waiting
  have given := counts.reset_tickets
  have less := Finset.card_erase_of_mem member
  refine ⟨member, ?_⟩
  constructor
  · constructor
    · exact counts.count_le
    · simp
    · exact counts.disjoint.mono_left (Finset.erase_subset _ _)
    · refine mem_update Thread.resetGeneration counts.mem_reset
        (by simp [Thread.resetGeneration, notFresh]) ?_
      intro u other
      simp [other]
    · exact mem_update Thread.sleepGeneration counts.mem_sleep
        (by simp [Thread.sleepGeneration, notSleeping]) fun _ _ => Iff.rfl
    · simp only [start, Condition.release]
      omega
    · simp only [start, Condition.release]
      omega
    · have set := counts.reset_set
      simp only [start, Condition.release, set]
      by_cases last : s.cReset.nWakeupTickets - 1 = 0
      · simp [last]
      · rw [if_neg last, decide_eq_decide]
        omega
    · intro u fresh'
      simp only [start, Condition.release]
      rw [Function.update_of_ne (by rintro rfl; exact notFresh fresh')]
      exact counts.fresh_generation u fresh'
    · exact counts.sleep_waiting
    · exact counts.sleep_set
    · exact counts.sleep_generation
    · intro filling
      obtain ⟨-, empty, tickets, asleep, same⟩ := counts.filling filling
      refine ⟨rfl, empty, tickets, asleep, ?_⟩
      intro u asleep
      simp only [start]
      rw [Function.update_of_ne (by rintro rfl; exact notSleeping asleep)]
      exact same u asleep
    · intro full
      obtain ⟨tickets, count, some, notified⟩ := counts.draining full
      refine ⟨tickets, count, some, ?_⟩
      intro u asleep
      simp only [start]
      rw [Function.update_of_ne (by rintro rfl; exact notSleeping asleep)]
      exact notified u asleep
  · have away : ∀ m, (s.threads t).inside ≠ Option.some (s.round, m) := by
      intro m inside
      exact lt_irrefl _ (rounds.stale_round t member _ m inside)
    exact (rounds.conditions s.countReset s.cReset.release s.cSleep).start (.inr away)
      (Finset.erase_subset _ _) subset_rfl notSleeping

/-- A thread returns from an old round. -/
theorem record_inv {t r : Nat} {m : Bool} (inv : Inv n s none stale fresh sleepers)
    (outside : s.threads t = .outside) (entered : (t, m) ∈ s.entered r) (old : r < s.round)
    (first : (t, m) ∉ s.returned r) : Inv n (record t r m s) none stale fresh sleepers := by
  obtain ⟨counts, rounds⟩ := inv
  refine ⟨⟨counts.count_le, counts.outside, counts.disjoint, counts.mem_reset, counts.mem_sleep,
    counts.reset_waiting, counts.reset_tickets, counts.reset_set, counts.fresh_generation,
    counts.sleep_waiting, counts.sleep_set, counts.sleep_generation, counts.filling,
    counts.draining⟩, rounds.now, ?_, rounds.future, rounds.once, rounds.master, rounds.place,
    rounds.inside_mem, rounds.sleep_round, rounds.stale_round, ?_, ?_⟩
  · intro r' less
    obtain ⟨known, some⟩ := rounds.past r' less
    refine ⟨known, ?_⟩
    simp only [record]
    rw [Function.update_apply]
    split
    · simp
    · exact some
  · intro r' u m' returned
    simp only [record] at returned ⊢
    rw [Function.update_apply] at returned
    split at returned
    · rename_i same
      subst same
      rcases List.mem_append.mp returned with before | now
      · exact rounds.returned_mem r' u m' before
      · obtain ⟨rfl, rfl⟩ := Prod.mk.inj (List.mem_singleton.mp now)
        exact ⟨entered, old, by simp [outside, Thread.inside]⟩
    · exact rounds.returned_mem r' u m' returned
  · intro r'
    simp only [record]
    rw [Function.update_apply]
    split
    · rename_i same
      subst same
      refine List.Nodup.append (rounds.returned_once r') (List.nodup_singleton _) ?_
      intro pair before now
      rw [List.mem_singleton.mp now] at before
      exact first before
    · exact rounds.returned_once r'

/-- A thread is released from `CSleep`. -/
theorem release_sleep {t g r : Nat} {m : Bool} (inv : Inv n s none stale fresh sleepers)
    (waits : s.threads t = .sleeping g m r) (released : s.cSleep.DoRelease g) :
    r = s.round ∧ s.countSleep = n ∧ (t, m) ∈ s.entered s.round ∧
      Inv n (start t { s with cSleep := s.cSleep.release }) (some t) stale fresh
        (sleepers.erase t) := by
  obtain ⟨counts, rounds⟩ := inv
  obtain ⟨some, -⟩ := released
  have member : t ∈ sleepers := (counts.mem_sleep t).mpr (by simp [waits, Thread.sleepGeneration])
  have notReset : t ∉ stale ∧ t ∉ fresh := by
    have reset := counts.mem_reset t
    simpa [waits, Thread.resetGeneration] using reset
  have full : s.countSleep = n := by
    rcases counts.count_le.lt_or_eq with filling | full
    · have tickets := (counts.filling filling).2.2.1
      omega
    · exact full
  have now : r = s.round := by
    obtain ⟨m', inside⟩ := rounds.sleep_round t member
    rw [waits, Thread.inside] at inside
    exact (Prod.mk.inj (Option.some.inj inside)).1
  have entered : (t, m) ∈ s.entered s.round :=
    (rounds.inside_mem t s.round m (by rw [waits, Thread.inside, now])).1
  obtain ⟨tickets, count, -, notified⟩ := counts.draining full
  have waiting := counts.sleep_waiting
  have less := Finset.card_erase_of_mem member
  refine ⟨now, full, entered, ?_⟩
  constructor
  · constructor
    · exact counts.count_le
    · rintro _ ⟨⟩
      simp [start]
    · exact counts.disjoint
    · exact mem_update Thread.resetGeneration counts.mem_reset
        (by simp [Thread.resetGeneration, notReset]) fun _ _ => Iff.rfl
    · refine mem_update Thread.sleepGeneration counts.mem_sleep
        (by simp [Thread.sleepGeneration]) ?_
      intro u other
      simp [other]
    · exact counts.reset_waiting
    · exact counts.reset_tickets
    · exact counts.reset_set
    · intro u fresh'
      simp only [start]
      rw [Function.update_of_ne (by rintro rfl; exact notReset.2 fresh')]
      exact counts.fresh_generation u fresh'
    · simp only [start, Condition.release]
      omega
    · have set := counts.sleep_set
      simp only [start, Condition.release, set]
      by_cases last : s.cSleep.nWakeupTickets - 1 = 0
      · simp [last]
      · rw [if_neg last, decide_eq_decide]
        omega
    · exact counts.sleep_generation
    · intro filling
      exact absurd full filling.ne
    · intro _
      simp only [Option.toList_none, List.length_nil] at count
      refine ⟨?_, ?_, nofun, ?_⟩
      · simp only [start, Condition.release]
        omega
      · simp only [start, Option.toList_some, List.length_singleton]
        omega
      · intro u among
        simp only [start, Condition.release]
        rw [Function.update_of_ne (Finset.mem_erase.mp among).1]
        exact notified u (Finset.mem_erase.mp among).2
  · exact (rounds.conditions s.countReset s.cReset s.cSleep.release).start (.inl rfl) subset_rfl
      (Finset.erase_subset _ _) (Finset.notMem_erase t sleepers)

/-- A step keeps the invariant. -/
theorem step_inv (inv : Inv n s none stale fresh sleepers) (moves : Step n s s') :
    ∃ stale fresh sleepers, Inv n s' none stale fresh sleepers := by
  obtain ⟨event, acts⟩ := moves
  cases event with
  | call t =>
    simp only [act] at acts
    split at acts
    · cases acts
      exact arrive_inv inv ‹_›
    · cases acts
  | wake t =>
    simp only [act] at acts
    split at acts
    · cases acts
    · rename_i g thread
      split at acts
      case isFalse => cases acts
      cases acts
      split
      · exact arrive_inv (release_reset inv (by rw [thread]; rfl) ‹_›).2 (by simp [start])
      · exact ⟨_, _, _, inv⟩
    · rename_i g m r thread
      split at acts
      case isFalse => cases acts
      cases acts
      split
      · obtain ⟨rfl, full, entered, inv'⟩ := release_sleep inv thread ‹_›
        exact leave_inv inv' full entered
      · exact ⟨_, _, _, inv⟩
    · rename_i g m r thread
      split at acts
      case isFalse => cases acts
      cases acts
      split
      · obtain ⟨member, inv'⟩ := release_reset inv (by rw [thread]; rfl) ‹_›
        have inside : (s.threads t).inside = some (r, m) := by rw [thread]; rfl
        refine ⟨_, _, _, record_inv inv' (by simp [start])
          (inv.rounds.inside_mem t r m inside).1 (inv.rounds.stale_round t member r m inside) ?_⟩
        intro returned
        exact (inv.rounds.returned_mem r t m returned).2.2 inside
      · exact ⟨_, _, _, inv⟩

/-- The barrier keeps its promise in every state, for every number of threads. -/
theorem correct (positive : 0 < n) (reaches : Reaches n s) : Correct n s := by
  have inv : ∃ stale fresh sleepers, Inv n s none stale fresh sleepers := by
    induction reaches with
    | start begins =>
      obtain rfl := begins
      exact ⟨_, _, _, initial_inv positive⟩
    | step _ moves ih =>
      obtain ⟨_, _, _, inv⟩ := ih
      exact step_inv inv moves
  obtain ⟨_, _, _, inv⟩ := inv
  exact inv.toCorrect positive

/-- Two threads go through a barrier for two. -/
theorem correct_sample :
    ∃ s, Reaches 2 s ∧ s.returned 0 = [(0, true), (1, false)] ∧ Correct 2 s := by
  let events : List Event := [.call 0, .call 1, .wake 0, .wake 1]
  obtain ⟨s, run⟩ : ∃ s, events.foldlM (fun s event => act 2 event s) initial = some s :=
    ⟨_, rfl⟩
  have reaches : Reaches 2 s :=
    Reachable.actions (fun event _ _ acts => ⟨event, acts⟩) (.start rfl) run
  refine ⟨s, reaches, ?_, correct (by decide) reaches⟩
  cases run
  rfl

end Barrier

end P3arsec.Bodytrack
