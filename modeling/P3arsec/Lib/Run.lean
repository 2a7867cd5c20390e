import Mathlib

/-!
# Runs of transition systems

A system is a start state predicate and a step relation. Safety is an invariant that every
step keeps; an invariant may use facts that are known of all reachable states. A system in
which every step lowers a measure, and in which only final states have no step, ends in a
final state along every run. The trace of a run is the list of its actions with their answers;
a system has the traces of another one that matches its actions.
-/

namespace P3arsec.Lib

variable {σ : Type*}

/-- The states that a run can reach. -/
inductive Reachable (start : σ → Prop) (step : σ → σ → Prop) : σ → Prop where
  /-- A run begins in a start state. -/
  | start {state : σ} (begins : start state) : Reachable start step state
  /-- A run goes on by a step. -/
  | step {state next : σ} (reached : Reachable start step state) (moves : step state next) :
      Reachable start step next

namespace Reachable

variable {start : σ → Prop} {step : σ → σ → Prop}

/-- What holds at the start and is kept by every step holds in every reachable state. -/
theorem invariant {inv : σ → Prop} (begins : ∀ state, start state → inv state)
    (keeps : ∀ state next, inv state → step state next → inv next) {state : σ}
    (reached : Reachable start step state) : inv state := by
  induction reached with
  | start begin => exact begins _ begin
  | step _ moves ih => exact keeps _ _ ih moves

/-- A list of actions that can be taken one after the other leads to a reachable state. -/
theorem actions {ι : Type*} {act : ι → σ → Option σ}
    (takes : ∀ action state next, act action state = some next → step state next)
    {state next : σ} (reached : Reachable start step state) {list : List ι}
    (run : list.foldlM (fun state action => act action state) state = some next) :
    Reachable start step next := by
  induction list generalizing state with
  | nil =>
    obtain rfl := Option.some.inj run
    exact reached
  | cons action list ih =>
    rw [List.foldlM_cons] at run
    obtain ⟨middle, moves, rest⟩ := Option.bind_eq_some_iff.mp run
    exact ih (reached.step (takes action state middle moves)) rest

/-- A run from a reachable state stays in reachable states. -/
theorem trans {state next : σ} (reached : Reachable start step state)
    (run : Relation.ReflTransGen step state next) : Reachable start step next := by
  induction run with
  | refl => exact reached
  | tail _ moves ih => exact ih.step moves

/-- Where every step lowers a measure and every state without a step is final, every run can
be carried on to a final state. -/
theorem exists_final {final : σ → Prop} (measure : σ → Nat)
    (lowers : ∀ state next, Reachable start step state → step state next →
      measure next < measure state)
    (progress : ∀ state, Reachable start step state → final state ∨ ∃ next, step state next)
    {state : σ} (reached : Reachable start step state) :
    ∃ last, Relation.ReflTransGen step state last ∧ final last := by
  induction bound : measure state using Nat.strong_induction_on generalizing state with
  | _ size ih =>
    rcases progress state reached with done | ⟨next, moves⟩
    · exact ⟨state, .refl, done⟩
    · have smaller := lowers state next reached moves
      rw [bound] at smaller
      obtain ⟨last, run, done⟩ := ih (measure next) smaller (reached.step moves) rfl
      exact ⟨last, .head moves run, done⟩

/-- Where every step lowers a measure no run goes on forever. -/
theorem no_infinite_run (measure : σ → Nat)
    (lowers : ∀ state next, Reachable start step state → step state next →
      measure next < measure state) :
    ¬∃ run : Nat → σ, start (run 0) ∧ ∀ i, step (run i) (run (i + 1)) := by
  rintro ⟨run, begins, moves⟩
  have reached : ∀ i, Reachable start step (run i) := by
    intro i
    induction i with
    | zero => exact .start begins
    | succ i ih => exact ih.step (moves i)
  have falls : ∀ i, measure (run i) + i ≤ measure (run 0) := by
    intro i
    induction i with
    | zero => exact le_rfl
    | succ i ih =>
      have lower := lowers _ _ (reached i) (moves i)
      omega
  have last := falls (measure (run 0) + 1)
  omega

end Reachable

section Traces

variable {τ ι ω : Type*}

/-- The actions of a run with what they answer, the latest one last, and the state behind them. An
action is taken where the run before it allows it. -/
inductive Traced (allows : List (ι × ω) → ι → Prop) (act : σ → ι → Option (ω × σ)) (start : σ) :
    List (ι × ω) → σ → Prop where
  /-- The run without actions. -/
  | start : Traced allows act start [] start
  /-- A run goes on by an action. -/
  | step {trace : List (ι × ω)} {state next : σ} {action : ι} {answer : ω}
      (traced : Traced allows act start trace state) (allowed : allows trace action)
      (acts : act state action = some (answer, next)) :
      Traced allows act start (trace ++ [(action, answer)]) next

namespace Traced

variable {allows : List (ι × ω) → ι → Prop} {act : σ → ι → Option (ω × σ)}
variable {act' : τ → ι → Option (ω × τ)} {first : σ} {first' : τ} {trace : List (ι × ω)}

/-- A system whose actions are matched by those of another one has its traces. -/
theorem simulated {rel : List (ι × ω) → σ → τ → Prop} (begins : rel [] first first')
    (keeps : ∀ trace state state' action answer next, rel trace state state' →
      allows trace action → act state action = some (answer, next) →
        ∃ next', act' state' action = some (answer, next') ∧
          rel (trace ++ [(action, answer)]) next next')
    {state : σ} (traced : Traced allows act first trace state) :
    ∃ state', Traced allows act' first' trace state' ∧ rel trace state state' := by
  induction traced with
  | start => exact ⟨first', .start, begins⟩
  | step _ allowed acts ih =>
    obtain ⟨state', traced', related⟩ := ih
    obtain ⟨next', acts', related'⟩ := keeps _ _ _ _ _ _ related allowed acts
    exact ⟨next', .step traced' allowed acts', related'⟩

end Traced

end Traces

end P3arsec.Lib
