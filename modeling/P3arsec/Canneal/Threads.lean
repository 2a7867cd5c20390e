import P3arsec.Lib.Run

/-!
# The temperature steps of the threads

Each thread runs temperature steps until `keep_going` is false, and waits at a barrier after each
step. When the design is to converge, a thread goes on while its own accepted moves are more good
than bad and a shared flag is set; a thread that stops clears the flag. The flag is read and
written in single steps, so that a thread may go on in a round in which another one stops
(`threads_disagree`). The threads agree as long as no thread finds the flag set in such a round
(`threads_agree`).
-/

namespace P3arsec.Canneal

open P3arsec.Lib

/-- Where a thread is in `annealer_thread::Run`. -/
inductive Place where
  /-- Before the read of the flag in `keep_going`. -/
  | test
  /-- Before the write of the flag in `keep_going`. -/
  | signal
  /-- In the moves of a temperature step. -/
  | moves
  /-- At the barrier. -/
  | barrier
  /-- Behind the loop. -/
  | left
  deriving DecidableEq, Repr

/-- The local state of a thread. -/
structure Thread where
  /-- Where the thread is. -/
  place : Place
  /-- `temp_steps_completed`. -/
  tempStepsCompleted : Nat
  deriving DecidableEq, Repr

/-- The threads and the flag that they share. -/
structure Annealer where
  /-- `_keep_going_global_flag`. -/
  keepGoingGlobalFlag : Bool
  /-- The threads. -/
  threads : Nat → Thread

/-- The numbers of good and of bad moves that a thread accepts in each temperature step. -/
abbrev Counts := Nat → Nat → Nat × Nat

/-- `accepted_good_moves` and `accepted_bad_moves` of a thread after a number of steps. -/
def accepted (counts : Counts) (t steps : Nat) : Int × Int :=
  if steps = 0 then (0, -1) else ((counts t steps).1, (counts t steps).2)

/-- The thread's own test in `keep_going`. -/
def improves (counts : Counts) (t steps : Nat) : Bool :=
  decide ((accepted counts t steps).1 > (accepted counts t steps).2)

/-- What the scheduler can let happen. -/
inductive Action where
  /-- A thread reads the flag and its own counts. -/
  | test (t : Nat)
  /-- A thread clears the flag. -/
  | signal (t : Nat)
  /-- A thread makes the moves of a temperature step. -/
  | moves (t : Nat)
  /-- The barrier lets all threads pass. -/
  | release
  deriving DecidableEq, Repr

namespace Annealer

/-- All threads before their first test. -/
def start : Annealer := ⟨true, fun _ => ⟨.test, 0⟩⟩

/-- The annealer with one thread changed. -/
def setThread (annealer : Annealer) (t : Nat) (thread : Thread) : Annealer :=
  { annealer with threads := Function.update annealer.threads t thread }

/-- The test of a thread, with the flag. -/
def passes (counts : Counts) (annealer : Annealer) (t : Nat) : Bool :=
  annealer.keepGoingGlobalFlag && improves counts t (annealer.threads t).tempStepsCompleted

variable (nthreads : Nat) (counts : Counts)

/-- One step. -/
inductive Step : Action → Annealer → Annealer → Prop where
  /-- The thread goes on when the test passes, and has to clear the flag otherwise. -/
  | test {annealer : Annealer} (t : Nat) (inside : t < nthreads)
      (here : (annealer.threads t).place = .test) :
      Step (.test t) annealer (annealer.setThread t { annealer.threads t with
        place := if passes counts annealer t then .moves else .signal })
  /-- The thread clears the flag and leaves the loop. -/
  | signal {annealer : Annealer} (t : Nat) (inside : t < nthreads)
      (here : (annealer.threads t).place = .signal) :
      Step (.signal t) annealer { annealer.setThread t { annealer.threads t with
        place := .left } with keepGoingGlobalFlag := false }
  /-- The thread completes its step and comes to the barrier. -/
  | moves {annealer : Annealer} (t : Nat) (inside : t < nthreads)
      (here : (annealer.threads t).place = .moves) :
      Step (.moves t) annealer (annealer.setThread t
        ⟨.barrier, (annealer.threads t).tempStepsCompleted + 1⟩)
  /-- When all threads are at the barrier, they go on to their tests. -/
  | release {annealer : Annealer}
      (all : ∀ t < nthreads, (annealer.threads t).place = .barrier) :
      Step .release annealer { annealer with
        threads := fun t => { annealer.threads t with place := .test } }

/-- Threads that have left have made the same number of temperature steps, and no thread waits at
the barrier when another one has left. -/
def Agreed (annealer : Annealer) : Prop :=
  (∀ t < nthreads, ∀ u < nthreads, (annealer.threads t).place = .left →
    (annealer.threads u).place = .left →
    (annealer.threads t).tempStepsCompleted = (annealer.threads u).tempStepsCompleted) ∧
  ∀ t < nthreads, ∀ u < nthreads, (annealer.threads t).place = .barrier →
    (annealer.threads u).place ≠ .left

/-- A test may only pass in a round in which the moves of all threads are more good than bad. -/
def Unanimous (action : Action) (annealer : Annealer) : Prop :=
  match action with
  | .test t => passes counts annealer t = true →
      ∀ u < nthreads, improves counts u (annealer.threads t).tempStepsCompleted = true
  | _ => True

/-- What unanimous steps keep: in a round without a failing thread all threads go on, and in a
round with one all threads stop. -/
inductive Inv (annealer : Annealer) : Prop where
  /-- All threads go on. -/
  | together (round : Nat) (flag : annealer.keepGoingGlobalFlag = true)
      (improve : ∀ t < nthreads, improves counts t round = true)
      (threads : ∀ t < nthreads, annealer.threads t = ⟨.test, round⟩ ∨
        annealer.threads t = ⟨.moves, round⟩ ∨ annealer.threads t = ⟨.barrier, round + 1⟩)
  /-- All threads stop. -/
  | converged (round failing : Nat) (inside : failing < nthreads)
      (fails : improves counts failing round = false)
      (threads : ∀ t < nthreads, annealer.threads t = ⟨.test, round⟩ ∨
        annealer.threads t = ⟨.signal, round⟩ ∨ annealer.threads t = ⟨.left, round⟩)

variable {nthreads counts} {annealer next : Annealer} {action : Action}

/-- One thread changes. -/
@[simp] theorem threads_setThread (annealer : Annealer) (t u : Nat) (thread : Thread) :
    (annealer.setThread t thread).threads u =
      if u = t then thread else annealer.threads u := by
  by_cases here : u = t
  · subst here
    simp [setThread]
  · simp [setThread, here]

/-- The invariant holds at the start. -/
theorem inv_start : Inv nthreads counts start := by
  apply Inv.together 0 rfl
  · intro t _
    rfl
  · exact fun t _ => .inl rfl

/-- After a release the next round begins, with or without a failing thread. -/
theorem inv_release (annealer : Annealer) (round : Nat) (flag : annealer.keepGoingGlobalFlag = true)
    (threads : ∀ t < nthreads, annealer.threads t = ⟨.test, round⟩) :
    Inv nthreads counts annealer := by
  by_cases improve : ∀ t < nthreads, improves counts t round = true
  · exact .together round flag improve fun t inside => .inl (threads t inside)
  · simp only [not_forall] at improve
    obtain ⟨failing, inside, fails⟩ := improve
    exact .converged round failing inside (by simpa using fails)
      fun t known => .inl (threads t known)

/-- A unanimous step keeps the invariant. -/
theorem Inv.step (inv : Inv nthreads counts annealer)
    (unanimous : Unanimous nthreads counts action annealer)
    (moves : Step nthreads counts action annealer next) : Inv nthreads counts next := by
  cases inv with
  | together round flag improve threads =>
    cases moves with
    | test t inside here =>
      have ready : annealer.threads t = ⟨.test, round⟩ := by
        rcases threads t inside with same | same | same
        · exact same
        · rw [same] at here
          cases here
        · rw [same] at here
          cases here
      have pass : passes counts annealer t = true := by
        rw [passes, flag, ready]
        exact improve t inside
      refine .together round flag improve fun u known => ?_
      rw [threads_setThread, if_pos pass, ready]
      split
      · exact .inr (.inl rfl)
      · exact threads u known
    | signal t inside here =>
      rcases threads t inside with same | same | same <;> rw [same] at here <;> cases here
    | moves t inside here =>
      have ready : annealer.threads t = ⟨.moves, round⟩ := by
        rcases threads t inside with same | same | same
        · rw [same] at here
          cases here
        · exact same
        · rw [same] at here
          cases here
      refine .together round flag improve fun u known => ?_
      rw [threads_setThread]
      split
      · rw [ready]
        exact .inr (.inr rfl)
      · exact threads u known
    | release all =>
      refine inv_release { annealer with
        threads := fun t => { annealer.threads t with place := .test } } (round + 1) flag ?_
      intro t inside
      have here := all t inside
      rcases threads t inside with same | same | same
      · rw [same] at here
        cases here
      · rw [same] at here
        cases here
      · show { annealer.threads t with place := Place.test } = _
        rw [same]
  | converged round failing inside fails threads =>
    cases moves with
    | test t known here =>
      have ready : annealer.threads t = ⟨.test, round⟩ := by
        rcases threads t known with same | same | same
        · exact same
        · rw [same] at here
          cases here
        · rw [same] at here
          cases here
      have stops : passes counts annealer t = false := by
        cases pass : passes counts annealer t with
        | false => rfl
        | true =>
          have all := unanimous pass failing inside
          rw [ready, fails] at all
          cases all
      refine .converged round failing inside fails fun u known => ?_
      rw [threads_setThread, stops, ready]
      split
      · exact .inr (.inl rfl)
      · exact threads u known
    | signal t known here =>
      refine .converged round failing inside fails fun u known' => ?_
      have ready : annealer.threads t = ⟨.signal, round⟩ := by
        rcases threads t known with same | same | same
        · rw [same] at here
          cases here
        · exact same
        · rw [same] at here
          cases here
      show (annealer.setThread t _).threads u = _ ∨ (annealer.setThread t _).threads u = _ ∨
        (annealer.setThread t _).threads u = _
      rw [threads_setThread]
      split
      · rw [ready]
        exact .inr (.inr rfl)
      · exact threads u known'
    | moves t known here =>
      rcases threads t known with same | same | same <;> rw [same] at here <;> cases here
    | release all =>
      have here := all failing inside
      rcases threads failing inside with same | same | same <;> rw [same] at here <;> cases here

/-- In both kinds of rounds the threads agree. -/
theorem Inv.agreed (inv : Inv nthreads counts annealer) : Agreed nthreads annealer := by
  cases inv with
  | together round _ _ threads =>
    have stays : ∀ t < nthreads, (annealer.threads t).place ≠ .left := by
      intro t inside gone
      rcases threads t inside with same | same | same <;> rw [same] at gone <;> cases gone
    exact ⟨fun t inside _ _ gone _ => absurd gone (stays t inside),
      fun _ _ u inside _ => stays u inside⟩
  | converged round _ _ _ threads =>
    have steps : ∀ t < nthreads, (annealer.threads t).tempStepsCompleted = round ∧
        (annealer.threads t).place ≠ .barrier := by
      intro t inside
      rcases threads t inside with same | same | same <;> rw [same] <;> exact ⟨rfl, by simp⟩
    exact ⟨fun t inside u known _ _ => (steps t inside).1.trans (steps u known).1.symm,
      fun t inside _ _ waits => absurd waits (steps t inside).2⟩

/-- The runs in which every step is unanimous. -/
def UnanimousRun (nthreads : Nat) (counts : Counts) : Annealer → Prop :=
  Reachable (fun annealer => annealer = start) fun annealer next =>
    ∃ action, Unanimous nthreads counts action annealer ∧ Step nthreads counts action annealer next

/-- A step of any kind. -/
def AnyStep (nthreads : Nat) (counts : Counts) (annealer next : Annealer) : Prop :=
  ∃ action, Step nthreads counts action annealer next

/-- The invariant holds in runs whose tests agree. -/
theorem UnanimousRun.inv (run : UnanimousRun nthreads counts annealer) :
    Inv nthreads counts annealer := by
  apply Reachable.invariant ?_ ?_ run
  · rintro _ rfl
    exact inv_start
  · rintro annealer next inv ⟨action, unanimous, moves⟩
    exact inv.step unanimous moves

/-- A unanimous run is a run. -/
theorem UnanimousRun.any (run : UnanimousRun nthreads counts annealer) :
    Reachable (fun annealer => annealer = start) (AnyStep nthreads counts) annealer := by
  induction run with
  | start begins => exact .start begins
  | step _ moves ih => exact ih.step ⟨_, moves.choose_spec.2⟩

/-- A thread that has passed alone can come to the barrier when the failing one has left. -/
theorem Inv.disagree {t : Nat} (inv : Inv nthreads counts annealer)
    (alone : ¬Unanimous nthreads counts (.test t) annealer)
    (moves : Step nthreads counts (.test t) annealer next) :
    ∃ last, Relation.ReflTransGen (AnyStep nthreads counts) next last ∧ ¬Agreed nthreads last := by
  have pass : passes counts annealer t = true := by
    by_contra stops
    exact alone fun pass => absurd pass stops
  obtain ⟨_, inside, here⟩ := moves
  rw [if_pos pass]
  cases inv with
  | together round flag improve threads =>
    rcases threads t inside with same | same | same
    · refine absurd (fun _ u known => ?_) alone
      rw [same]
      exact improve u known
    · rw [same] at here
      cases here
    · rw [same] at here
      cases here
  | converged round failing known fails threads =>
    have own : annealer.threads t = ⟨.test, round⟩ := by
      rcases threads t inside with same | same | same
      · exact same
      · rw [same] at here
        cases here
      · rw [same] at here
        cases here
    have apart : failing ≠ t := by
      rintro rfl
      rw [passes, own, fails, Bool.and_false] at pass
      cases pass
    -- a state in which the thread is in its moves and the failing one has left is one step away
    have finish : ∀ state : Annealer, (state.threads t).place = .moves →
        (state.threads failing).place = .left →
        ∃ last, Relation.ReflTransGen (AnyStep nthreads counts) state last ∧
          ¬Agreed nthreads last := by
      intro state busy gone
      refine ⟨_, .single ⟨_, .moves t inside busy⟩, fun agreed => ?_⟩
      apply agreed.2 t inside failing known
      · simp
      · simpa [apart] using gone
    -- the failing thread writes the flag and leaves
    have leave : ∀ state : Annealer, (state.threads t).place = .moves →
        (state.threads failing).place = .signal →
        ∃ last, Relation.ReflTransGen (AnyStep nthreads counts) state last ∧
          ¬Agreed nthreads last := by
      intro state busy signals
      obtain ⟨last, run, bad⟩ := finish { state.setThread failing { state.threads failing with
          place := .left } with keepGoingGlobalFlag := false }
        (by simpa [setThread, Ne.symm apart] using busy) (by simp [setThread])
      exact ⟨last, .head ⟨_, .signal failing known signals⟩ run, bad⟩
    rcases threads failing known with same | same | same
    · -- it reads the flag first, and fails whatever it reads
      have stops : ∀ state : Annealer, state.threads failing = ⟨.test, round⟩ →
          passes counts state failing = false := by
        intro state ready
        rw [passes, ready, fails, Bool.and_false]
      have ready : (annealer.setThread t { annealer.threads t with place := .moves }).threads
          failing = ⟨.test, round⟩ := by simp [apart, same]
      obtain ⟨last, run, bad⟩ := leave ((annealer.setThread t { annealer.threads t with
          place := .moves }).setThread failing ⟨.signal, round⟩)
        (by simp [Ne.symm apart]) (by simp)
      refine ⟨last, .head ⟨.test failing, ?_⟩ run, bad⟩
      have reads : Step nthreads counts (.test failing) _ _ :=
        .test failing known (congrArg Thread.place ready)
      rw [stops _ ready, ready] at reads
      exact reads
    · exact leave _ (by simp) (by simp [apart, same])
    · exact finish _ (by simp) (by simp [apart, same])

end Annealer

/-- The threads agree in every run in which a test passes only when the moves of all threads of
that round are more good than bad. The first test that breaks this leads on to a state in which a
thread waits at the barrier while another one has left. -/
theorem threads_agree {nthreads : Nat} {counts : Counts} {annealer : Annealer}
    (run : Annealer.UnanimousRun nthreads counts annealer) :
    Annealer.Agreed nthreads annealer ∧
    ∀ t next, ¬Annealer.Unanimous nthreads counts (.test t) annealer →
      Annealer.Step nthreads counts (.test t) annealer next →
      ∃ last, Relation.ReflTransGen (Annealer.AnyStep nthreads counts) next last ∧
        ¬Annealer.Agreed nthreads last :=
  ⟨run.inv.agreed, fun _ _ alone moves => run.inv.disagree alone moves⟩

/-- Two threads can pass the barrier of the first round together, whatever their counts are. -/
theorem Annealer.UnanimousRun.firstRound (counts : Counts) :
    ∃ annealer, Annealer.UnanimousRun 2 counts annealer ∧
      annealer.keepGoingGlobalFlag = true ∧
      annealer.threads 0 = ⟨.test, 1⟩ ∧ annealer.threads 1 = ⟨.test, 1⟩ := by
  have unanimous : ∀ t annealer, (annealer : Annealer).threads t = ⟨.test, 0⟩ →
      Annealer.Unanimous 2 counts (.test t) annealer := by
    intro t annealer ready _ u _
    rw [ready]
    rfl
  refine ⟨_, .step (.step (.step (.step (.step (.start rfl)
    ⟨.test 0, unanimous 0 _ rfl, .test 0 (by decide) rfl⟩)
    ⟨.test 1, unanimous 1 _ rfl, .test 1 (by decide) rfl⟩)
    ⟨.moves 0, trivial, .moves 0 (by decide) rfl⟩)
    ⟨.moves 1, trivial, .moves 1 (by decide) rfl⟩)
    ⟨.release, trivial, .release ?_⟩, rfl, rfl, rfl⟩
  intro t inside
  interval_cases t <;> rfl

/-- The agreement of two threads that stop after the first round. -/
theorem threads_agree_sample : ∃ annealer : Annealer,
    (annealer.threads 0).place = .left ∧ Annealer.Agreed 2 annealer := by
  obtain ⟨annealer, run, -, first, second⟩ :=
    Annealer.UnanimousRun.firstRound fun _ _ => (0, 1)
  have stops : ∀ state : Annealer, state.threads 0 = ⟨.test, 1⟩ →
      Annealer.passes (fun _ _ => (0, 1)) state 0 = false := by
    intro state ready
    rw [Annealer.passes, ready, show improves (fun _ _ => (0, 1)) 0 1 = false from rfl,
      Bool.and_false]
  have tested := run.step ⟨.test 0, fun passes => absurd (stops _ first) (by rw [passes]; simp),
    .test 0 (by decide) (congrArg Thread.place first)⟩
  have gone := tested.step ⟨.signal 0, trivial, .signal 0 (by decide) (by
    rw [Annealer.threads_setThread, stops _ first]
    rfl)⟩
  exact ⟨_, by simp [Annealer.setThread], (threads_agree gone).1⟩

/-- Two threads of which only the first one makes more good moves than bad do not agree. -/
theorem threads_disagree :
    ¬∀ (nthreads : Nat) (counts : Counts) (annealer : Annealer),
      Reachable (fun annealer => annealer = Annealer.start) (Annealer.AnyStep nthreads counts)
        annealer → Annealer.Agreed nthreads annealer := by
  intro agree
  obtain ⟨annealer, run, flag, first, second⟩ :=
    Annealer.UnanimousRun.firstRound fun t _ => if t = 0 then (1, 0) else (0, 1)
  have reached : Reachable (fun annealer => annealer = Annealer.start)
    (Annealer.AnyStep 2 fun t _ =>
      if t = 0 then (1, 0) else (0, 1)) annealer := run.any
  -- the first thread reads the flag before the second one clears it
  have passed := reached.step ⟨_, .test 0 (by decide) (congrArg Thread.place first)⟩
  rw [if_pos (by rw [Annealer.passes, flag, first]; rfl)] at passed
  have failed := passed.step ⟨_, .test 1 (by decide) (by
    rw [Annealer.threads_setThread, if_neg (by decide), second])⟩
  rw [if_neg (by rw [Annealer.passes, Annealer.threads_setThread, if_neg (by decide), second]
                 simp [improves, accepted])] at failed
  have left := failed.step ⟨_, .signal 1 (by decide) (by simp)⟩
  have waits := left.step ⟨_, .moves 0 (by decide) (by simp [Annealer.setThread])⟩
  exact (agree _ _ _ waits).2 0 (by decide) 1 (by decide) (by simp [Annealer.setThread])
    (by simp [Annealer.setThread])

end P3arsec.Canneal
