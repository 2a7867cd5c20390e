import Mathlib

/-!
# Linearizable objects

Several parties call one object. The reference system of an object lets each call take effect in
one step between the call and its answer, and the history of a run is the list of its calls and
answers. A system is linearizable where the reference system has all its histories.

A call that leaves the object as it is may also be answered by what was right at some moment since
the call. Which moment that is can depend on what comes later, so a system that remembers every
such moment is put between the two: it is matched step by step, and its histories are those of the
reference system.
-/

namespace P3arsec.Lib.Concurrent

/-- What passes between a party and the object. -/
inductive Event (π ι ω : Type*) where
  /-- A party calls an operation. -/
  | call (party : π) (operation : ι)
  /-- A party gets an answer. -/
  | answer (party : π) (answer : ω)

/-- The runs of a system with the events that they show. -/
inductive History {σ ε : Type*} (step : σ → Option ε → σ → Prop) (first : σ) :
    List ε → σ → Prop where
  /-- The run without steps. -/
  | start : History step first [] first
  /-- A run goes on by a step, which may show an event. -/
  | step {history : List ε} {state next : σ} {event : Option ε}
      (run : History step first history state) (moves : step state event next) :
      History step first (history ++ event.toList) next

variable {π ι ω σ τ : Type*} [DecidableEq π]

/-- What a party waits for in the reference system. -/
inductive Phase (ι ω : Type*) where
  /-- The party has no call out. -/
  | idle
  /-- The call has not taken effect. -/
  | called (operation : ι)
  /-- The call has taken effect. -/
  | acted (answer : ω)

/-- A state of the reference system. -/
structure Object (π σ ι ω : Type*) where
  /-- The object itself. -/
  value : σ
  /-- What each party waits for. -/
  phase : π → Phase ι ω

/-- The object before the first call. -/
def Object.fresh (value : σ) : Object π σ ι ω := ⟨value, fun _ => .idle⟩

/-- The steps of the reference system. `does` says which answers an operation can give and what it
makes of the object. -/
inductive Object.Step (does : σ → ι → ω → σ → Prop) :
    Object π σ ι ω → Option (Event π ι ω) → Object π σ ι ω → Prop where
  /-- A party calls. -/
  | call {value : σ} {phase : π → Phase ι ω} {party : π} {operation : ι}
      (waits : phase party = .idle) :
      Object.Step does ⟨value, phase⟩ (some (.call party operation))
        ⟨value, Function.update phase party (.called operation)⟩
  /-- A call takes effect. -/
  | act {value next : σ} {phase : π → Phase ι ω} {party : π} {operation : ι} {answer : ω}
      (waits : phase party = .called operation) (acts : does value operation answer next) :
      Object.Step does ⟨value, phase⟩ none ⟨next, Function.update phase party (.acted answer)⟩
  /-- A party gets its answer. -/
  | answer {value : σ} {phase : π → Phase ι ω} {party : π} {answer : ω}
      (waits : phase party = .acted answer) :
      Object.Step does ⟨value, phase⟩ (some (.answer party answer))
        ⟨value, Function.update phase party .idle⟩

/-- All histories of a system are those of the reference system. -/
def Linearizable (does : σ → ι → ω → σ → Prop) (start : σ)
    (step : τ → Option (Event π ι ω) → τ → Prop) (first : τ) : Prop :=
  ∀ history state, History step first history state →
    ∃ object, History (Object.Step does) (Object.fresh start) history object

/-- What a party waits for where all moments since its call are remembered. -/
inductive Glance (ι ω : Type*) where
  /-- The party has no call out. -/
  | idle
  /-- The call has not taken effect; some answers were right at some moment. -/
  | called (operation : ι) (seen : Set ω)
  /-- The call has taken effect. -/
  | acted (answer : ω)

/-- A state of the system that remembers. -/
structure Witnessed (π σ ι ω : Type*) where
  /-- The object itself. -/
  value : σ
  /-- What each party waits for. -/
  glance : π → Glance ι ω

namespace Witnessed

/-- The object before the first call. -/
def fresh (value : σ) : Witnessed π σ ι ω := ⟨value, fun _ => .idle⟩

/-- The steps of the system that remembers. -/
inductive Step (does : σ → ι → ω → σ → Prop) :
    Witnessed π σ ι ω → Option (Event π ι ω) → Witnessed π σ ι ω → Prop where
  /-- A party calls. -/
  | call {value : σ} {glance : π → Glance ι ω} {party : π} {operation : ι}
      (waits : glance party = .idle) :
      Step does ⟨value, glance⟩ (some (.call party operation))
        ⟨value, Function.update glance party (.called operation ∅)⟩
  /-- A moment at which an answer is right that leaves the object as it is. -/
  | witness {value : σ} {glance : π → Glance ι ω} {party : π} {operation : ι} {seen : Set ω}
      {answer : ω} (waits : glance party = .called operation seen)
      (acts : does value operation answer value) :
      Step does ⟨value, glance⟩ none
        ⟨value, Function.update glance party (.called operation (insert answer seen))⟩
  /-- A call takes effect. -/
  | act {value next : σ} {glance : π → Glance ι ω} {party : π} {operation : ι} {seen : Set ω}
      {answer : ω} (waits : glance party = .called operation seen)
      (acts : does value operation answer next) :
      Step does ⟨value, glance⟩ none ⟨next, Function.update glance party (.acted answer)⟩
  /-- A party gets the answer of the effect. -/
  | answer {value : σ} {glance : π → Glance ι ω} {party : π} {answer : ω}
      (waits : glance party = .acted answer) :
      Step does ⟨value, glance⟩ (some (.answer party answer))
        ⟨value, Function.update glance party .idle⟩
  /-- A party gets an answer that was right before. -/
  | recalled {value : σ} {glance : π → Glance ι ω} {party : π} {operation : ι} {seen : Set ω}
      {answer : ω} (waits : glance party = .called operation seen) (known : answer ∈ seen) :
      Step does ⟨value, glance⟩ (some (.answer party answer))
        ⟨value, Function.update glance party .idle⟩

/-- What the party may wait for in the reference system: a call that has not taken effect may as
well have given any answer that was right. -/
inductive Allows : Glance ι ω → Phase ι ω → Prop where
  | idle : Allows .idle .idle
  | called {operation : ι} {seen : Set ω} : Allows (.called operation seen) (.called operation)
  | seen {operation : ι} {seen : Set ω} {answer : ω} (known : answer ∈ seen) :
      Allows (.called operation seen) (.acted answer)
  | acted {answer : ω} : Allows (.acted answer) (.acted answer)

variable {does : σ → ι → ω → σ → Prop} {glance : π → Glance ι ω} {phase : π → Phase ι ω}

/-- A phase of one party is replaced by one that its former glance allows. -/
theorem Allows.before {party : π} {old : Glance ι ω} {next : Glance ι ω} {known : Phase ι ω}
    (waits : glance party = old) (possible : Allows old known)
    (allows : ∀ other, Allows (Function.update glance party next other) (phase other)) :
    ∀ other, Allows (glance other) (Function.update phase party known other) := by
  intro other
  by_cases same : other = party
  · subst same
    rwa [Function.update_self, waits]
  · have kept := allows other
    rw [Function.update_of_ne same] at kept
    rwa [Function.update_of_ne same]

/-- The new glance of the party allows its phase. -/
theorem Allows.now {party : π} {next : Glance ι ω}
    (allows : ∀ other, Allows (Function.update glance party next other) (phase other)) :
    Allows next (phase party) := by
  have known := allows party
  rwa [Function.update_self] at known

/-- The party's own phase is the one that a step of the reference system puts there. -/
theorem update_phase {party : π} {known now : Phase ι ω} (at_party : phase party = now) :
    Function.update (Function.update phase party known) party now = phase := by
  rw [Function.update_idem, ← at_party, Function.update_eq_self]

/-- A run that remembers is a run of the reference system, whichever of the right answers the
calls under way have taken. -/
theorem reference {start : σ} {history : List (Event π ι ω)} {state : Witnessed π σ ι ω}
    (run : History (Step does) (fresh start) history state) :
    ∀ phase, (∀ party, Allows (state.glance party) (phase party)) →
      History (Object.Step does) (Object.fresh start) history ⟨state.value, phase⟩ := by
  induction run with
  | start =>
    intro phase allows
    have idle : phase = fun _ => .idle := by
      funext party
      cases known : phase party <;> have := allows party <;> rw [known] at this <;>
        first | rfl | cases this
    rw [idle]
    exact .start
  | step run moves ih =>
    intro phase allows
    cases moves with
    | call waits =>
      rename_i value glance party operation
      have before := ih _ (Allows.before waits .idle allows)
      have now := Allows.now allows
      cases at_party : phase party with
      | idle => rw [at_party] at now; cases now
      | acted => rw [at_party] at now; cases now with | seen known => exact known.elim
      | called =>
        rw [at_party] at now
        cases now
        have call : Object.Step does ⟨value, Function.update phase party .idle⟩
            (some (.call party operation)) _ := .call (Function.update_self ..)
        have next := before.step call
        rwa [update_phase at_party] at next
    | witness waits acts =>
      rename_i value glance party operation seen answer
      have now := Allows.now allows
      cases at_party : phase party with
      | idle => rw [at_party] at now; cases now
      | called =>
        rw [at_party] at now
        cases now
        have before := ih _ (Allows.before waits .called allows)
        rw [← at_party, Function.update_eq_self] at before
        simpa using before
      | acted =>
        rw [at_party] at now
        cases now with
        | seen known =>
          rcases known with rfl | known
          · have before := ih _ (Allows.before waits .called allows)
            have next := History.step before (.act (Function.update_self ..) acts)
            rwa [update_phase at_party] at next
          · have before := ih _ (Allows.before waits (.seen known) allows)
            rw [← at_party, Function.update_eq_self] at before
            simpa using before
    | act waits acts =>
      rename_i value next glance party operation seen answer
      have before := ih _ (Allows.before waits .called allows)
      have now := Allows.now allows
      cases at_party : phase party with
      | idle => rw [at_party] at now; cases now
      | called => rw [at_party] at now; cases now
      | acted =>
        rw [at_party] at now
        cases now
        have next := History.step before (.act (Function.update_self ..) acts)
        rwa [update_phase at_party] at next
    | answer waits =>
      rename_i value glance party answer
      have before := ih _ (Allows.before waits .acted allows)
      have now := Allows.now allows
      cases at_party : phase party with
      | called => rw [at_party] at now; cases now
      | acted => rw [at_party] at now; cases now
      | idle =>
        have next := History.step before (.answer (Function.update_self ..))
        rwa [update_phase at_party] at next
    | recalled waits known =>
      rename_i value glance party operation seen answer
      have before := ih _ (Allows.before waits (.seen known) allows)
      have now := Allows.now allows
      cases at_party : phase party with
      | called => rw [at_party] at now; cases now
      | acted => rw [at_party] at now; cases now
      | idle =>
        have next := History.step before (.answer (Function.update_self ..))
        rwa [update_phase at_party] at next

/-- A phase that a glance allows. -/
def chosen : Glance ι ω → Phase ι ω
  | .idle => .idle
  | .called operation _ => .called operation
  | .acted answer => .acted answer

/-- A chosen answer is allowed. -/
theorem allows_chosen (known : Glance ι ω) : Allows known (chosen known) := by
  cases known
  · exact .idle
  · exact .called
  · exact .acted

/-- A run whose steps are matched by at most one step that remembers has a run of the reference
system with its history, and its last state is still related. -/
theorem matched {step : τ → Option (Event π ι ω) → τ → Prop} {first : τ} {start : σ}
    {rel : τ → Witnessed π σ ι ω → Prop} (begins : rel first (fresh start))
    (keeps : ∀ state event next object, rel state object → step state event next →
      ∃ object', (object' = object ∧ event = none ∨ Step does object event object') ∧
        rel next object') {history : List (Event π ι ω)} {state : τ}
    (run : History step first history state) :
    ∃ object, rel state object ∧ History (Object.Step does) (Object.fresh start) history
      ⟨object.value, fun party => chosen (object.glance party)⟩ := by
  have known : ∃ object, rel state object ∧ History (Step does) (fresh start) history object := by
    induction run with
    | start => exact ⟨fresh start, begins, .start⟩
    | step run moves ih =>
      obtain ⟨object, related, run'⟩ := ih
      obtain ⟨object', same | moves', related'⟩ := keeps _ _ _ _ related moves
      · obtain ⟨rfl, rfl⟩ := same
        exact ⟨object', related', by simpa using run'⟩
      · exact ⟨object', related', .step run' moves'⟩
  obtain ⟨object, related, run'⟩ := known
  exact ⟨object, related, reference run' _ fun party => allows_chosen _⟩

/-- A system is linearizable where each of its steps is matched by at most one step that
remembers. -/
theorem linearizable {step : τ → Option (Event π ι ω) → τ → Prop} {first : τ} {start : σ}
    (rel : τ → Witnessed π σ ι ω → Prop) (begins : rel first (fresh start))
    (keeps : ∀ state event next object, rel state object → step state event next →
      ∃ object', (object' = object ∧ event = none ∨ Step does object event object') ∧
        rel next object') : Linearizable does start step first := by
  intro history state run
  obtain ⟨object, -, run'⟩ := matched begins keeps run
  exact ⟨_, run'⟩

end Witnessed

end P3arsec.Lib.Concurrent
