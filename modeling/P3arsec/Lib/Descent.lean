import Mathlib

/-!
# Descents

A system whose steps lower a rank in a well-founded order has no infinite run. Where each step
changes one party, the rank can be the sum of what the parties still have to do. A system that can
always take a step has an infinite run.
-/

namespace P3arsec.Lib

/-- Where an invariant makes every step lower a rank in a well-founded order, no run goes on
forever. -/
theorem no_infinite_descent {σ ρ : Type*} [Preorder ρ] [WellFoundedLT ρ] {step : σ → σ → Prop}
    (inv : σ → Prop) (rank : σ → ρ)
    (lowers : ∀ state next, inv state → step state next → inv next ∧ rank next < rank state)
    {start : σ} (begins : inv start) :
    ¬∃ run : Nat → σ, run 0 = start ∧ ∀ i, step (run i) (run (i + 1)) := by
  rintro ⟨run, first, moves⟩
  have holds : ∀ i, inv (run i) := by
    intro i
    induction i with
    | zero => exact first ▸ begins
    | succ i ih => exact (lowers _ _ ih (moves i)).1
  obtain ⟨_, ⟨i, rfl⟩, least⟩ := wellFounded_lt.has_min (Set.range fun i => rank (run i))
    ⟨_, 0, rfl⟩
  exact least _ ⟨i + 1, rfl⟩ (lowers _ _ (holds i) (moves i)).2

/-- A sum over all parties changes by as much as the part of one party. -/
theorem sum_update_add {τ : Type*} (rank : τ → Nat) (party : Nat → τ) {n i : Nat} (next : τ)
    (below : i < n) :
    ∑ j ∈ Finset.range n, rank (Function.update party i next j) + rank (party i) =
      ∑ j ∈ Finset.range n, rank (party j) + rank next := by
  have member := Finset.mem_range.mpr below
  have others : ∑ j ∈ (Finset.range n).erase i, rank (Function.update party i next j) =
      ∑ j ∈ (Finset.range n).erase i, rank (party j) :=
    Finset.sum_congr rfl fun j inside => by
      rw [Function.update_of_ne (Finset.ne_of_mem_erase inside)]
  rw [← Finset.add_sum_erase _ _ member, ← Finset.add_sum_erase _ _ member, others,
    Function.update_self]
  omega

/-- The sum over all parties falls when one of them has less to do. -/
theorem sum_update_lt {τ : Type*} (rank : τ → Nat) {party : Nat → τ} {n i : Nat} {next : τ}
    (below : i < n) (less : rank next < rank (party i)) :
    ∑ j ∈ Finset.range n, rank (Function.update party i next j) <
      ∑ j ∈ Finset.range n, rank (party j) := by
  have := sum_update_add rank party next below
  omega

/-- A system that can always take a step has a run that goes on forever. -/
theorem exists_infinite_run {σ : Type*} {step : σ → σ → Prop} (inv : σ → Prop)
    (goes : ∀ state, inv state → ∃ next, step state next ∧ inv next) {start : σ}
    (begins : inv start) : ∃ run : Nat → σ, run 0 = start ∧ ∀ i, step (run i) (run (i + 1)) := by
  have : Nonempty σ := ⟨start⟩
  choose! next moves using goes
  have holds : ∀ i, inv (next^[i] start) := by
    intro i
    induction i with
    | zero => exact begins
    | succ i ih =>
      rw [Function.iterate_succ_apply']
      exact (moves _ ih).2
  refine ⟨fun i => next^[i] start, rfl, fun i => ?_⟩
  dsimp only
  rw [Function.iterate_succ_apply']
  exact (moves _ (holds i)).1

end P3arsec.Lib
