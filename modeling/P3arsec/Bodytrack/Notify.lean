import P3arsec.Lib.Run
import P3arsec.Lib.Tickets

/-!
# The notifications of a condition

`Condition` gives tickets to those that wait. The branch for `pthread` lets a thread that calls
`Wait` take a ticket that was given before it came. The default branch keeps it waiting until the
generation has changed, but after that it takes any ticket. What `Condition` promises is kept as
long as nobody calls `Wait` while a ticket is pending, or as long as `NotifyOne` gives no ticket
beside a pending one with two newcomers in its generation.
-/

namespace P3arsec.Bodytrack.Notify

open P3arsec.Lib

/-- The branches of the source. -/
inductive Branch where
  | pthread
  | winthreads

/-- `Condition`. The generation counter is an `unsigned int`, and the event of the default branch
stays set until it is reset. -/
structure Condition where
  nWaiting : Int := 0
  nWakeupTickets : Int := 0
  genCounter : Nat := 0
  /-- The event. -/
  c : Bool := false

namespace Condition

/-- The threads that wait without a ticket for them. -/
def slack (cond : Condition) : Int := cond.nWaiting - cond.nWakeupTickets

/-- Tickets are set, and the primitive is signaled. -/
def signal (branch : Branch) (tickets : Int) (cond : Condition) : Condition :=
  match branch with
  | .pthread => { cond with nWakeupTickets := tickets }
  | .winthreads =>
    { cond with
      nWakeupTickets := tickets
      genCounter := (cond.genCounter + 1) % 2 ^ 32
      c := true }

/-- `NotifyOne`. -/
def notifyOne (branch : Branch) (cond : Condition) : Int × Condition :=
  let slack := cond.slack
  if 0 < slack then (slack, cond.signal branch (cond.nWakeupTickets + 1)) else (slack, cond)

/-- `NotifyAll`. -/
def notifyAll (branch : Branch) (cond : Condition) : Int × Condition :=
  let slack := cond.slack
  if 0 < slack then (slack, cond.signal branch cond.nWaiting) else (slack, cond)

/-- `Wait` up to its loop. -/
def enter (cond : Condition) : Condition := { cond with nWaiting := cond.nWaiting + 1 }

/-- The test on which a thread leaves the loop of `Wait`. -/
def DoRelease (branch : Branch) (cond : Condition) (myGeneration : Nat) : Prop :=
  match branch with
  | .pthread => ¬cond.nWakeupTickets = 0
  | .winthreads => 0 < cond.nWakeupTickets ∧ cond.genCounter ≠ myGeneration

instance (branch : Branch) (cond : Condition) (myGeneration : Nat) :
    Decidable (cond.DoRelease branch myGeneration) :=
  match branch with
  | .pthread => inferInstanceAs (Decidable (¬_))
  | .winthreads => inferInstanceAs (Decidable (_ ∧ _))

/-- `Wait` after its loop. -/
def release (branch : Branch) (cond : Condition) : Condition :=
  match branch with
  | .pthread =>
    { cond with nWakeupTickets := cond.nWakeupTickets - 1, nWaiting := cond.nWaiting - 1 }
  | .winthreads =>
    { cond with
      nWaiting := cond.nWaiting - 1
      nWakeupTickets := cond.nWakeupTickets - 1
      c := if cond.nWakeupTickets - 1 = 0 then false else cond.c }

end Condition

/-- Where a thread is. The number of its `Wait` is not part of the program. -/
inductive Thread where
  | outside
  | sleeping (wait myGeneration : Nat)

/-- A condition with its threads, while the mutex is free. The fields from `waits` on only record
what happens. -/
structure State where
  cond : Condition
  threads : Nat → Thread
  /-- The number of calls of `Wait`. -/
  waits : Nat
  /-- The number of calls of `NotifyOne` and of `NotifyAll`. -/
  notifications : Nat
  /-- The notifications before a `Wait` began. -/
  begun : Nat → Nat
  /-- The `Wait`s that have returned, with the notifications before. -/
  returned : List (Nat × Nat)
  /-- The `Wait`s and the tickets. -/
  desk : Desk Nat

namespace State

/-- The state after construction. -/
def initial : State where
  cond := {}
  threads := fun _ => .outside
  waits := 0
  notifications := 0
  begun := fun _ => 0
  returned := []
  desk := .empty

/-- A thread calls `Wait` and reaches its loop. -/
def enter (t : Nat) (s : State) : State :=
  { s with
    cond := s.cond.enter
    threads := Function.update s.threads t (.sleeping s.waits s.cond.genCounter)
    waits := s.waits + 1
    begun := Function.update s.begun s.waits s.notifications
    desk := s.desk.arrive s.waits }

/-- A thread in `Wait` comes to the test of the loop. -/
def test (branch : Branch) (t wait myGeneration : Nat) (s : State) : State :=
  if s.cond.DoRelease branch myGeneration then
    { s with
      cond := s.cond.release branch
      threads := Function.update s.threads t .outside
      returned := s.returned ++ [(wait, s.notifications)]
      desk := s.desk.serve wait }
  else s

/-- A thread has called `NotifyOne` or `NotifyAll`, which have left `cond`. -/
def notify (cond : Condition) (s : State) : State :=
  { s with
    cond := cond
    notifications := s.notifications + 1
    desk := Desk.issue^[(cond.nWakeupTickets - s.cond.nWakeupTickets).toNat] s.desk }

end State

/-- What a thread does while it has the mutex. -/
inductive Action where
  /-- It calls `Wait`. -/
  | wait (t : Nat)
  /-- It has the mutex back, after the primitive has let it go on for whatever reason. -/
  | resume (t : Nat)
  /-- It calls `NotifyOne`. -/
  | notifyOne (t : Nat)
  /-- It calls `NotifyAll`. -/
  | notifyAll (t : Nat)

/-- The thread that does it. -/
def Action.thread : Action → Nat
  | wait t => t
  | resume t => t
  | notifyOne t => t
  | notifyAll t => t

/-- What a thread outside or inside of `Wait` can do. The branch for `pthread` tests before it
sleeps. -/
def act (branch : Branch) (action : Action) (s : State) : Option State :=
  match action, s.threads action.thread with
  | .wait t, .outside =>
    match branch with
    | .pthread => some ((s.enter t).test branch t s.waits s.cond.genCounter)
    | .winthreads => some (s.enter t)
  | .resume t, .sleeping wait myGeneration => some (s.test branch t wait myGeneration)
  | .notifyOne _, .outside => some (s.notify (s.cond.notifyOne branch).2)
  | .notifyAll _, .outside => some (s.notify (s.cond.notifyAll branch).2)
  | _, _ => none

/-- A step of one of `n` threads. -/
def Step (n : Nat) (branch : Branch) (s s' : State) : Prop :=
  ∃ action, action.thread < n ∧ act branch action s = some s'

/-- The states of a condition for `n` threads. -/
def Reaches (n : Nat) (branch : Branch) : State → Prop :=
  Reachable (· = State.initial) (Step n branch)

/-- With the primitives of `pthread` nobody calls `Wait` while a ticket is pending. In the default
branch nobody calls `NotifyOne` so that it gives a ticket while another one is pending and two
threads wait in the present generation. -/
def Orderly (branch : Branch) (action : Action) (s : State) : Prop :=
  match branch, action with
  | .pthread, .wait _ => s.cond.nWakeupTickets = 0
  | .winthreads, .notifyOne _ => 0 < s.cond.slack → s.cond.nWakeupTickets = 0 ∨
      ∀ t u w w', s.threads t = .sleeping w s.cond.genCounter →
        s.threads u = .sleeping w' s.cond.genCounter → t = u
  | _, _ => True

/-- The states of a condition for `n` threads that keep this order. -/
def ReachesOrderly (n : Nat) (branch : Branch) : State → Prop :=
  Reachable (· = State.initial) fun s s' =>
    ∃ action, action.thread < n ∧ Orderly branch action s ∧ act branch action s = some s'

/-- What a condition promises. -/
structure Correct (s : State) : Prop where
  tickets_nonneg : 0 ≤ s.cond.nWakeupTickets
  tickets_le : s.cond.nWakeupTickets ≤ s.cond.nWaiting
  /-- A `Wait` returns after a notification that came after its beginning. -/
  notified : ∀ wait k, (wait, k) ∈ s.returned → s.begun wait < k
  /-- Each ticket is for a `Wait` of its own that had begun when it was given, and only those
  return. -/
  fair : s.desk.Fair

variable {n k t w g : Nat} {branch : Branch} {cond : Condition} {action : Action} {s s' : State}

/-- What holds of the counters in every run. The event is set while tickets are pending. -/
structure Bounded (branch : Branch) (cond : Condition) : Prop where
  nonneg : 0 ≤ cond.nWakeupTickets
  le : cond.nWakeupTickets ≤ cond.nWaiting
  set : branch = .winthreads → (cond.c = true ↔ 0 < cond.nWakeupTickets)

/-- A thread that waits keeps the bounds. -/
theorem Bounded.enter (bounded : Bounded branch cond) : Bounded branch cond.enter :=
  ⟨bounded.nonneg, bounded.le.trans (Int.le_add_one le_rfl), bounded.set⟩

/-- A signal keeps the bounds when there are waiters for its tickets. -/
theorem Bounded.signal {tickets : Int} (positive : 0 < tickets) (le : tickets ≤ cond.nWaiting) :
    Bounded branch (cond.signal branch tickets) := by
  cases branch with
  | pthread => exact ⟨positive.le, le, fun other => by cases other⟩
  | winthreads => exact ⟨positive.le, le, fun _ => iff_of_true rfl positive⟩

/-- A ticket is pending for a thread that leaves the loop. -/
theorem Bounded.tickets_pos (bounded : Bounded branch cond) (released : cond.DoRelease branch g) :
    0 < cond.nWakeupTickets := by
  cases branch with
  | pthread => exact lt_of_le_of_ne bounded.nonneg (Ne.symm released)
  | winthreads => exact released.1

/-- A waiter that is released keeps the bounds. -/
theorem Bounded.release (bounded : Bounded branch cond) (released : cond.DoRelease branch g) :
    Bounded branch (cond.release branch) := by
  have positive := bounded.tickets_pos released
  have le := bounded.le
  cases branch with
  | pthread =>
    constructor
    · exact Int.sub_nonneg_of_le positive
    · exact Int.sub_le_sub_right le 1
    · intro other
      cases other
  | winthreads =>
    constructor
    · exact Int.sub_nonneg_of_le positive
    · exact Int.sub_le_sub_right le 1
    · intro _
      simp only [Condition.release]
      split
      · next last => exact iff_of_false Bool.false_ne_true last.not_gt
      · next more => exact iff_of_true ((bounded.set rfl).mpr positive) (by omega)

/-- The counters after either notification. -/
theorem Bounded.notifyOne (bounded : Bounded branch cond) :
    Bounded branch (cond.notifyOne branch).2 := by
  have nonneg := bounded.nonneg
  simp only [Condition.notifyOne]
  split
  · next few => exact .signal (by omega) (by simp only [Condition.slack] at few; omega)
  · exact bounded

/-- `NotifyAll` keeps the bounds. -/
theorem Bounded.notifyAll (bounded : Bounded branch cond) :
    Bounded branch (cond.notifyAll branch).2 := by
  have nonneg := bounded.nonneg
  simp only [Condition.notifyAll]
  split
  · next few => exact .signal (by simp only [Condition.slack] at few; omega) le_rfl
  · exact bounded

/-- The test of a waiter keeps the bounds. -/
theorem Bounded.test (bounded : Bounded branch s.cond) (t wait g : Nat) :
    Bounded branch (s.test branch t wait g).cond := by
  unfold State.test
  split
  · next released => exact bounded.release released
  · exact bounded

/-- The steps, with what they start from. -/
theorem act_cases (acts : act branch action s = some s') :
    (∃ t, action = .wait t ∧ s.threads t = .outside ∧
      (branch = .pthread ∧ s' = (s.enter t).test branch t s.waits s.cond.genCounter ∨
        branch = .winthreads ∧ s' = s.enter t)) ∨
    (∃ t wait g, s.threads t = .sleeping wait g ∧ s' = s.test branch t wait g) ∨
    (∃ t, action = .notifyOne t ∧ s' = s.notify (s.cond.notifyOne branch).2) ∨
    ∃ t, action = .notifyAll t ∧ s' = s.notify (s.cond.notifyAll branch).2 := by
  unfold act at acts
  split at acts
  · next t outside =>
    refine Or.inl ⟨t, rfl, outside, ?_⟩
    cases branch with
    | pthread => exact Or.inl ⟨rfl, (Option.some.inj acts).symm⟩
    | winthreads => exact Or.inr ⟨rfl, (Option.some.inj acts).symm⟩
  · next t wait g asleep =>
    exact Or.inr (Or.inl ⟨t, wait, g, asleep, (Option.some.inj acts).symm⟩)
  · next t _ => exact Or.inr (Or.inr (Or.inl ⟨t, rfl, (Option.some.inj acts).symm⟩))
  · next t _ => exact Or.inr (Or.inr (Or.inr ⟨t, rfl, (Option.some.inj acts).symm⟩))
  · cases acts

/-- Every action keeps the bounds. -/
theorem Bounded.act (bounded : Bounded branch s.cond) (acts : act branch action s = some s') :
    Bounded branch s'.cond := by
  rcases act_cases acts with ⟨t, -, -, ⟨-, rfl⟩ | ⟨-, rfl⟩⟩ | ⟨t, wait, g, -, rfl⟩ |
    ⟨t, -, rfl⟩ | ⟨t, -, rfl⟩
  · exact Bounded.test (s := s.enter t) bounded.enter t _ _
  · exact bounded.enter
  · exact bounded.test t wait g
  · exact bounded.notifyOne
  · exact bounded.notifyAll

/-- The bounds hold at the start. -/
theorem initial_bounded : Bounded branch State.initial.cond :=
  ⟨le_rfl, le_rfl, fun _ => iff_of_false Bool.false_ne_true (lt_irrefl 0)⟩

/-- The counters are in bounds in every run, orderly or not. -/
theorem Reaches.bounded (reached : Reaches n branch s) : Bounded branch s.cond := by
  induction reached with
  | start begins =>
    rw [begins]
    exact initial_bounded
  | step _ moves ih =>
    obtain ⟨action, -, acts⟩ := moves
    exact ih.act acts

/-- What holds in every orderly run, with the pending tickets and their takers. -/
structure Inv (branch : Branch) (s : State) (pending : Finset Nat) (taker : Nat → Nat) : Prop where
  bounded : Bounded branch s.cond
  assigned : s.desk.Assigned pending taker
  tickets : s.cond.nWakeupTickets = pending.card
  waiting : s.cond.nWaiting = s.desk.waiting.card
  /-- Those who wait are the `Wait`s of the threads that sleep. -/
  mem_waiting : ∀ w, w ∈ s.desk.waiting ↔ ∃ t g, s.threads t = .sleeping w g
  once : ∀ t u w g g', s.threads t = .sleeping w g → s.threads u = .sleeping w g' → t = u
  numbered : ∀ w, w ∈ s.desk.waiting ∨ w ∈ s.desk.served → w < s.waits
  begun_le : ∀ w ∈ s.desk.waiting, s.begun w ≤ s.notifications
  /-- A ticket comes with a notification. -/
  heard : ∀ w ∈ s.desk.waiting, s.desk.since w < s.desk.issued → s.begun w < s.notifications
  returned_lt : ∀ w k, (w, k) ∈ s.returned → w < s.waits
  returned_heard : ∀ w k, (w, k) ∈ s.returned → s.begun w < k
  /-- With the primitives of `pthread` everybody came before the pending tickets. -/
  before : branch = .pthread → ∀ ticket ∈ pending, ∀ w ∈ s.desk.waiting, s.desk.since w ≤ ticket
  covered : branch = .winthreads → s.desk.Covered pending
  /-- In the default branch those of an older generation came before the last ticket. -/
  older : branch = .winthreads → ∀ t w g, s.threads t = .sleeping w g →
    g ≠ s.cond.genCounter → s.desk.since w < s.desk.issued

variable {pending : Finset Nat} {taker : Nat → Nat}

/-- The invariant holds at the start. -/
theorem initial_inv : Inv branch .initial ∅ id := by
  constructor
  case bounded => exact initial_bounded
  case assigned => exact Desk.assigned_empty id
  case covered =>
    rintro - start ⟨ticket, member, -⟩
    exact absurd member (Finset.notMem_empty ticket)
  all_goals simp [State.initial, Desk.empty]

/-- The invariant gives what is wanted. -/
theorem Inv.toCorrect (inv : Inv branch s pending taker) : Correct s :=
  ⟨inv.bounded.nonneg, inv.bounded.le, inv.returned_heard, inv.assigned.fair⟩

/-- A thread comes, with the primitives of `pthread` while no ticket is pending. -/
theorem Inv.enter (inv : Inv branch s pending taker) (outside : s.threads t = .outside)
    (none_ : branch = .pthread → pending = ∅) : Inv branch (s.enter t) pending taker := by
  have new : s.waits ∉ s.desk.waiting := fun member =>
    lt_irrefl _ (inv.numbered _ (Or.inl member))
  have unserved : s.waits ∉ s.desk.served := fun member =>
    lt_irrefl _ (inv.numbered _ (Or.inr member))
  have old : ∀ w ∈ s.desk.waiting, w ≠ s.waits := by
    rintro w member rfl
    exact new member
  have others : ∀ u w g, (s.enter t).threads u = .sleeping w g →
      u = t ∧ w = s.waits ∧ g = s.cond.genCounter ∨ u ≠ t ∧ s.threads u = .sleeping w g := by
    intro u w g asleep
    by_cases same : u = t
    · subst same
      simp only [State.enter, Function.update_self, Thread.sleeping.injEq] at asleep
      exact Or.inl ⟨rfl, asleep.1.symm, asleep.2.symm⟩
    · simp only [State.enter, Function.update_of_ne same] at asleep
      exact Or.inr ⟨same, asleep⟩
  constructor
  · exact inv.bounded.enter
  · exact inv.assigned.arrive new unserved
  · exact inv.tickets
  · simp only [State.enter, Condition.enter, Desk.arrive]
    rw [Finset.card_insert_of_notMem new, inv.waiting, Nat.cast_succ]
  · intro w
    simp only [State.enter, Desk.arrive, Finset.mem_insert, inv.mem_waiting]
    constructor
    · rintro (rfl | ⟨u, g, asleep⟩)
      · exact ⟨t, _, Function.update_self ..⟩
      · refine ⟨u, g, ?_⟩
        rw [Function.update_of_ne, asleep]
        rintro rfl
        rw [outside] at asleep
        cases asleep
    · rintro ⟨u, g, asleep⟩
      rcases others u w g asleep with ⟨-, same, -⟩ | ⟨-, asleep⟩
      · exact Or.inl same
      · exact Or.inr ⟨u, g, asleep⟩
  · intro u v w g g' asleep asleep'
    rcases others u w g asleep with ⟨here, same, -⟩ | ⟨-, slept⟩ <;>
      rcases others v w g' asleep' with ⟨here', same', -⟩ | ⟨-, slept'⟩
    · rw [here, here']
    · exact absurd same (old w ((inv.mem_waiting w).mpr ⟨v, g', slept'⟩))
    · exact absurd same' (old w ((inv.mem_waiting w).mpr ⟨u, g, slept⟩))
    · exact inv.once u v w g g' slept slept'
  · intro w known
    simp only [State.enter, Desk.arrive, Finset.mem_insert] at known ⊢
    rcases known with (rfl | member) | member
    · exact Nat.lt_succ_self _
    · exact (inv.numbered w (Or.inl member)).trans (Nat.lt_succ_self _)
    · exact (inv.numbered w (Or.inr member)).trans (Nat.lt_succ_self _)
  · intro w member
    simp only [State.enter, Desk.arrive, Finset.mem_insert] at member ⊢
    rcases member with rfl | member
    · rw [Function.update_self]
    · rw [Function.update_of_ne (old w member)]
      exact inv.begun_le w member
  · intro w member chance
    simp only [State.enter, Desk.arrive, Finset.mem_insert] at member chance ⊢
    rcases member with rfl | member
    · rw [Function.update_self] at chance
      exact absurd chance (lt_irrefl _)
    · rw [Function.update_of_ne (old w member)] at chance ⊢
      exact inv.heard w member chance
  · intro w k member
    exact (inv.returned_lt w k member).trans (Nat.lt_succ_self _)
  · intro w k member
    simp only [State.enter]
    rw [Function.update_of_ne (inv.returned_lt w k member).ne]
    exact inv.returned_heard w k member
  · intro primitives ticket member
    rw [none_ primitives] at member
    exact absurd member (Finset.notMem_empty ticket)
  · intro default_
    exact (inv.covered default_).arrive new
  · intro default_ u w g asleep stale
    simp only [State.enter, Condition.enter] at stale
    rcases others u w g asleep with ⟨-, -, same⟩ | ⟨-, asleep⟩
    · exact absurd same stale
    · have member := (inv.mem_waiting w).mpr ⟨u, g, asleep⟩
      simp only [State.enter, Desk.arrive]
      rw [Function.update_of_ne (old w member)]
      exact inv.older default_ u w g asleep stale

/-- A thread that leaves the loop came before a pending ticket. -/
theorem Inv.exists_ticket (inv : Inv branch s pending taker) (asleep : s.threads t = .sleeping w g)
    (released : s.cond.DoRelease branch g) : ∃ ticket ∈ pending, s.desk.since w ≤ ticket := by
  have waits := (inv.mem_waiting w).mpr ⟨t, g, asleep⟩
  have positive := inv.bounded.tickets_pos released
  rw [inv.tickets, Nat.cast_pos, Finset.card_pos] at positive
  cases branch with
  | pthread =>
    obtain ⟨ticket, member⟩ := positive
    exact ⟨ticket, member, inv.before rfl ticket member w waits⟩
  | winthreads =>
    exact (inv.covered rfl).exists_ticket waits
      (inv.older rfl t w g asleep released.2.symm) positive

/-- A thread comes to the test of the loop. -/
theorem Inv.test (inv : Inv branch s pending taker) (asleep : s.threads t = .sleeping w g) :
    ∃ pending' taker', Inv branch (s.test branch t w g) pending' taker' := by
  have bounded := inv.bounded.test t w g
  unfold State.test at bounded ⊢
  split at bounded
  case isFalse stays =>
    rw [if_neg stays]
    exact ⟨pending, taker, inv⟩
  case isTrue released =>
  rw [if_pos released]
  have waits := (inv.mem_waiting w).mpr ⟨t, g, asleep⟩
  obtain ⟨ticket, member, taker', since, first, assigned⟩ :=
    inv.assigned.serve waits (inv.exists_ticket asleep released)
  have inside := inv.assigned.inside ticket member
  have counters : (s.cond.release branch).nWakeupTickets = s.cond.nWakeupTickets - 1 ∧
      (s.cond.release branch).nWaiting = s.cond.nWaiting - 1 ∧
      (s.cond.release branch).genCounter = s.cond.genCounter := by
    cases branch <;> exact ⟨rfl, rfl, rfl⟩
  have others : ∀ u w' g', Function.update s.threads t .outside u = .sleeping w' g' →
      u ≠ t ∧ s.threads u = .sleeping w' g' := by
    intro u w' g' asleep'
    by_cases same : u = t
    · rw [same, Function.update_self] at asleep'
      cases asleep'
    · rw [Function.update_of_ne same] at asleep'
      exact ⟨same, asleep'⟩
  refine ⟨pending.erase ticket, taker', ?_⟩
  constructor
  · exact bounded
  · exact assigned
  · simp only [counters, inv.tickets]
    rw [← Finset.card_erase_add_one member]
    omega
  · simp only [counters, inv.waiting, Desk.serve]
    rw [← Finset.card_erase_add_one waits]
    omega
  · intro w'
    simp only [Desk.serve, Finset.mem_erase, inv.mem_waiting]
    constructor
    · rintro ⟨apart, u, g', asleep'⟩
      refine ⟨u, g', ?_⟩
      rw [Function.update_of_ne, asleep']
      rintro rfl
      rw [asleep, Thread.sleeping.injEq] at asleep'
      exact apart asleep'.1.symm
    · rintro ⟨u, g', asleep'⟩
      obtain ⟨apart, slept⟩ := others u w' g' asleep'
      refine ⟨?_, u, g', slept⟩
      rintro rfl
      exact apart (inv.once u t w' g' g slept asleep)
  · intro u v w' g' g'' asleep' asleep''
    exact inv.once u v w' g' g'' (others u w' g' asleep').2 (others v w' g'' asleep'').2
  · intro w' known
    simp only [Desk.serve, Finset.mem_erase, Finset.mem_insert] at known
    rcases known with ⟨-, member⟩ | rfl | member
    · exact inv.numbered w' (Or.inl member)
    · exact inv.numbered w' (Or.inl waits)
    · exact inv.numbered w' (Or.inr member)
  · intro w' member'
    exact inv.begun_le w' (Finset.mem_of_mem_erase member')
  · intro w' member'
    exact inv.heard w' (Finset.mem_of_mem_erase member')
  · intro w' k member'
    rcases List.mem_append.mp member' with before | last
    · exact inv.returned_lt w' k before
    · obtain ⟨rfl, -⟩ := Prod.mk.inj (List.mem_singleton.mp last)
      exact inv.numbered w' (Or.inl waits)
  · intro w' k member'
    rcases List.mem_append.mp member' with before | last
    · exact inv.returned_heard w' k before
    · obtain ⟨rfl, rfl⟩ := Prod.mk.inj (List.mem_singleton.mp last)
      exact inv.heard w' waits (lt_of_le_of_lt since inside)
  · intro primitives other member' w' member''
    exact inv.before primitives other (Finset.mem_of_mem_erase member') w'
      (Finset.mem_of_mem_erase member'')
  · intro default_
    exact (inv.covered default_).serve waits member inside since first
  · intro default_ u w' g' asleep' stale
    simp only [counters] at stale
    exact inv.older default_ u w' g' (others u w' g' asleep').2 stale

/-- A notification gives `k` tickets: none, or one for each that waits without a ticket, or one
while no ticket is pending or no two newcomers wait. -/
theorem Inv.notify (inv : Inv branch s pending taker) (bounded : Bounded branch cond)
    (tickets : cond.nWakeupTickets = s.cond.nWakeupTickets + k)
    (waiting : cond.nWaiting = s.cond.nWaiting)
    (generation : k = 0 → cond.genCounter = s.cond.genCounter)
    (few : branch = .winthreads → k = 0 ∨ cond.nWakeupTickets = cond.nWaiting ∨
      k = 1 ∧ (pending = ∅ ∨
        (s.desk.waiting.filter fun w => s.desk.since w = s.desk.issued).card ≤ 1)) :
    ∃ pending' taker', Inv branch (s.notify cond) pending' taker' := by
  have given : (cond.nWakeupTickets - s.cond.nWakeupTickets).toNat = k := by omega
  have le := bounded.le
  have old := inv.tickets
  have all := inv.waiting
  obtain ⟨taker', assigned⟩ := inv.assigned.issues (k := k) (by omega)
  have card := inv.assigned.card_issues k
  have same := s.desk.issue_iterate k
  have came : ∀ w ∈ s.desk.waiting, s.desk.since w ≤ s.desk.issued := inv.assigned.since_le
  refine ⟨pending ∪ Finset.Ico s.desk.issued (s.desk.issued + k), taker', ?_⟩
  unfold State.notify
  rw [given]
  constructor <;> simp only [same]
  case bounded => exact bounded
  case assigned => exact assigned
  case tickets =>
    rw [card, tickets, old, Nat.cast_add]
  case waiting => rw [waiting, all]
  case mem_waiting => exact inv.mem_waiting
  case once => exact inv.once
  case numbered => exact inv.numbered
  case begun_le =>
    intro w member
    exact (inv.begun_le w member).trans (Nat.le_succ _)
  case heard =>
    intro w member _
    exact Nat.lt_succ_of_le (inv.begun_le w member)
  case returned_lt => exact inv.returned_lt
  case returned_heard => exact inv.returned_heard
  case before =>
    intro primitives ticket member w member'
    rcases Finset.mem_union.mp member with pend | new
    · exact inv.before primitives ticket pend w member'
    · exact (came w member').trans (Finset.mem_Ico.mp new).1
  case covered =>
    intro default_
    rcases few default_ with rfl | full | ⟨rfl, alone⟩
    · simpa using inv.covered default_
    · refine assigned.covered ?_
      rw [same.1, card]
      omega
    · have covered := (inv.covered default_).issue inv.assigned.inside alone
      rwa [Nat.Ico_succ_singleton, Finset.union_comm, ← Finset.insert_eq]
  case older =>
    intro default_ t w g asleep stale
    have member := (inv.mem_waiting w).mpr ⟨t, g, asleep⟩
    rcases Nat.eq_zero_or_pos k with rfl | positive
    · rw [generation rfl] at stale
      exact inv.older default_ t w g asleep stale
    · have le := came w member
      omega

/-- At most one thread waits in the present generation, so that at most one has come since the last
ticket. -/
theorem Inv.newcomers (inv : Inv .winthreads s pending taker)
    (alone : ∀ t u w w', s.threads t = .sleeping w s.cond.genCounter →
      s.threads u = .sleeping w' s.cond.genCounter → t = u) :
    (s.desk.waiting.filter fun w => s.desk.since w = s.desk.issued).card ≤ 1 := by
  have young : ∀ w, w ∈ s.desk.waiting → s.desk.since w = s.desk.issued →
      ∃ t, s.threads t = .sleeping w s.cond.genCounter := by
    intro w member late
    obtain ⟨t, g, asleep⟩ := (inv.mem_waiting w).mp member
    by_cases present : g = s.cond.genCounter
    · exact ⟨t, present ▸ asleep⟩
    · exact absurd (inv.older rfl t w g asleep present) (by omega)
  rw [Finset.card_le_one]
  intro w member w' member'
  obtain ⟨member, late⟩ := Finset.mem_filter.mp member
  obtain ⟨member', late'⟩ := Finset.mem_filter.mp member'
  obtain ⟨t, asleep⟩ := young w member late
  obtain ⟨u, asleep'⟩ := young w' member' late'
  obtain rfl := alone t u w w' asleep asleep'
  rw [asleep, Thread.sleeping.injEq] at asleep'
  exact asleep'.1

/-- `NotifyOne` keeps the invariant when no waiter of an old round can take the ticket of another.
-/
theorem Inv.notifyOne (inv : Inv branch s pending taker)
    (alone : branch = .winthreads → 0 < s.cond.slack → s.cond.nWakeupTickets = 0 ∨
      ∀ t u w w', s.threads t = .sleeping w s.cond.genCounter →
        s.threads u = .sleeping w' s.cond.genCounter → t = u) :
    ∃ pending' taker', Inv branch (s.notify (s.cond.notifyOne branch).2) pending' taker' := by
  have bounded := inv.bounded.notifyOne
  simp only [Condition.notifyOne] at bounded ⊢
  by_cases more : 0 < s.cond.slack
  · rw [if_pos more] at bounded ⊢
    have signaled : (s.cond.signal branch (s.cond.nWakeupTickets + 1)).nWakeupTickets =
        s.cond.nWakeupTickets + (1 : Nat) ∧
        (s.cond.signal branch (s.cond.nWakeupTickets + 1)).nWaiting = s.cond.nWaiting := by
      cases branch <;> exact ⟨rfl, rfl⟩
    refine inv.notify bounded signaled.1 signaled.2 (fun zero => absurd zero one_ne_zero) ?_
    intro default_
    refine Or.inr (Or.inr ⟨rfl, ?_⟩)
    rcases alone default_ more with zero | single
    · have none_ := inv.tickets
      rw [zero] at none_
      exact Or.inl (Finset.card_eq_zero.mp (Int.ofNat_eq_zero.mp none_.symm))
    · subst default_
      exact Or.inr (inv.newcomers single)
  · rw [if_neg more] at bounded ⊢
    exact inv.notify bounded (k := 0) (Int.add_zero _).symm rfl (fun _ => rfl) fun _ => Or.inl rfl

/-- `NotifyAll` keeps the invariant. -/
theorem Inv.notifyAll (inv : Inv branch s pending taker) :
    ∃ pending' taker', Inv branch (s.notify (s.cond.notifyAll branch).2) pending' taker' := by
  have bounded := inv.bounded.notifyAll
  simp only [Condition.notifyAll] at bounded ⊢
  by_cases more : 0 < s.cond.slack
  · rw [if_pos more] at bounded ⊢
    have signaled : (s.cond.signal branch s.cond.nWaiting).nWakeupTickets = s.cond.nWaiting ∧
        (s.cond.signal branch s.cond.nWaiting).nWaiting = s.cond.nWaiting := by
      cases branch <;> exact ⟨rfl, rfl⟩
    simp only [Condition.slack] at more
    refine inv.notify bounded (k := (s.cond.nWaiting - s.cond.nWakeupTickets).toNat) ?_ signaled.2
      (fun zero => by omega) fun _ => Or.inr (Or.inl (signaled.1.trans signaled.2.symm))
    rw [signaled.1]
    omega
  · rw [if_neg more] at bounded ⊢
    exact inv.notify bounded (k := 0) (Int.add_zero _).symm rfl (fun _ => rfl) fun _ => Or.inl rfl

/-- The invariant is kept by every orderly step. -/
theorem Inv.act (inv : Inv branch s pending taker) (orderly : Orderly branch action s)
    (acts : act branch action s = some s') : ∃ pending' taker', Inv branch s' pending' taker' := by
  rcases act_cases acts with ⟨t, rfl, outside, ⟨rfl, rfl⟩ | ⟨rfl, rfl⟩⟩ | ⟨t, w, g, asleep, rfl⟩ |
    ⟨t, rfl, rfl⟩ | ⟨t, rfl, rfl⟩
  · have none_ : pending = ∅ := by
      have zero := inv.tickets
      rw [show s.cond.nWakeupTickets = 0 from orderly] at zero
      exact Finset.card_eq_zero.mp (Int.ofNat_eq_zero.mp zero.symm)
    exact (inv.enter outside fun _ => none_).test (Function.update_self ..)
  · exact ⟨pending, taker, inv.enter outside fun other => by cases other⟩
  · exact inv.test asleep
  · refine inv.notifyOne fun default_ => ?_
    subst default_
    exact orderly
  · exact inv.notifyAll

/-- In every orderly run the condition keeps its promise. -/
theorem wait_correct (reached : ReachesOrderly n branch s) : Correct s := by
  have inv : ∃ pending taker, Inv branch s pending taker := by
    induction reached with
    | start begins =>
      rw [begins]
      exact ⟨∅, id, initial_inv⟩
    | step _ moves ih =>
      obtain ⟨pending, taker, inv⟩ := ih
      obtain ⟨action, -, orderly, acts⟩ := moves
      exact inv.act orderly acts
  obtain ⟨pending, taker, inv⟩ := inv
  exact inv.toCorrect

/-- A run in which a waiter returns behind a notification. -/
theorem wait_correct_sample : ∃ s, s.returned = [(0, 1)] ∧ Correct s := by
  have start : ReachesOrderly 2 .winthreads .initial := .start rfl
  have first := start.step ⟨.wait 0, Nat.two_pos, trivial, rfl⟩
  have second := first.step ⟨.notifyOne 1, Nat.one_lt_two, fun _ => Or.inl rfl, rfl⟩
  have third := second.step ⟨.resume 0, Nat.two_pos, trivial, rfl⟩
  exact ⟨_, rfl, wait_correct third⟩

/-- With the primitives of `pthread` a thread that calls `Wait` after `NotifyOne` takes the ticket
of the thread that waits, and returns at once. In the default branch two threads that come after a
`NotifyOne` both return after another one. -/
theorem wait_incorrect :
    (∃ s, Reaches 2 .pthread s ∧ s.returned = [(1, 1)] ∧ s.begun 1 = 1 ∧ ¬s.desk.Fair) ∧
      ∃ s, Reaches 4 .winthreads s ∧ ¬s.desk.Fair := by
  constructor
  · have start : Reaches 2 .pthread .initial := .start rfl
    have first := start.step ⟨.wait 0, Nat.two_pos, rfl⟩
    have second := first.step ⟨.notifyOne 1, Nat.one_lt_two, rfl⟩
    have third := second.step ⟨.wait 1, Nat.one_lt_two, rfl⟩
    refine ⟨_, third, rfl, rfl, ?_⟩
    rintro ⟨taker, candidate, -, served⟩
    have given : taker 0 = 0 := Finset.mem_singleton.mp (candidate 0 Nat.one_pos)
    obtain ⟨ticket, inside, same⟩ := served 1 (Finset.mem_singleton_self 1)
    obtain rfl := Nat.lt_one_iff.mp inside
    omega
  · have start : Reaches 4 .winthreads .initial := .start rfl
    have first := start.step ⟨.wait 0, Nat.succ_pos 3, rfl⟩
    have second := first.step ⟨.notifyOne 3, Nat.lt_succ_self 3, rfl⟩
    have third := second.step ⟨.wait 1, by decide, rfl⟩
    have fourth := third.step ⟨.wait 2, by decide, rfl⟩
    have fifth := fourth.step ⟨.notifyOne 3, Nat.lt_succ_self 3, rfl⟩
    have sixth := fifth.step ⟨.resume 1, by decide, rfl⟩
    have seventh := sixth.step ⟨.resume 2, by decide, rfl⟩
    refine ⟨_, seventh, ?_⟩
    rintro ⟨taker, candidate, -, served⟩
    have given : taker 0 = 0 := Finset.mem_singleton.mp (candidate 0 Nat.two_pos)
    obtain ⟨ticket, inside, same⟩ :=
      served 1 (Finset.mem_insert_of_mem (Finset.mem_singleton_self 1))
    obtain ⟨other, inside', same'⟩ := served 2 (Finset.mem_insert_self 2 _)
    have bound : ticket < 2 := inside
    have bound' : other < 2 := inside'
    interval_cases ticket <;> interval_cases other <;> omega

end P3arsec.Bodytrack.Notify
