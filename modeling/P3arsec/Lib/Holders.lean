import Mathlib

/-!
# Holders of shared objects

Each of some live things may hold an object, and an object may have several holders. A reference
counter is the number of holders of its object; the lemmas say how a new holder, a holder that goes
away and a change of other things change it.
-/

namespace P3arsec.Lib

variable {ι κ : Type*} [DecidableEq ι] [DecidableEq κ]

/-- The live things that hold an object. -/
def holders (live : Finset ι) (holds : ι → Option κ) (object : κ) : Finset ι :=
  live.filter fun thing => holds thing = some object

variable {live : Finset ι} {holds after : ι → Option κ} {object other : κ} {thing : ι}

omit [DecidableEq ι] in
/-- The things that hold an object. -/
@[simp] theorem mem_holders :
    thing ∈ holders live holds object ↔ thing ∈ live ∧ holds thing = some object :=
  Finset.mem_filter

omit [DecidableEq ι] in
/-- What the live things hold says it all. -/
theorem holders_congr (same : ∀ each ∈ live, after each = holds each) (object : κ) :
    holders live after object = holders live holds object :=
  Finset.filter_congr fun thing member => by rw [same thing member]

/-- A new thing is one more holder of its object. -/
theorem card_holders_insert (fresh : thing ∉ live)
    (same : ∀ each ∈ live, after each = holds each) (own : after thing = some object) :
    (holders (insert thing live) after object).card = (holders live holds object).card + 1 := by
  rw [holders, Finset.filter_insert, if_pos own, Finset.card_insert_of_notMem]
  · exact congrArg (fun set => set.card + 1) (holders_congr same object)
  · exact fun member => fresh (Finset.mem_of_mem_filter thing member)

/-- A new thing does not change the holders of another object. -/
theorem holders_insert_of_ne (same : ∀ each ∈ live, after each = holds each)
    (own : after thing = some object) (apart : other ≠ object) :
    holders (insert thing live) after other = holders live holds other := by
  have misses : after thing ≠ some other := by
    rw [own]
    exact fun equal => apart (Option.some.inj equal).symm
  rw [holders, Finset.filter_insert, if_neg misses]
  exact holders_congr same other

/-- A thing that goes away was a holder of its object. -/
theorem card_holders_erase (member : thing ∈ live)
    (same : ∀ each ∈ live.erase thing, after each = holds each)
    (own : holds thing = some object) :
    (holders (live.erase thing) after object).card + 1 = (holders live holds object).card := by
  have whole := card_holders_insert (Finset.notMem_erase thing live)
    (fun each inside => (same each inside).symm) own
  rw [Finset.insert_erase member] at whole
  exact whole.symm

/-- A thing that goes away does not change the holders of another object. -/
theorem holders_erase_of_ne (member : thing ∈ live)
    (same : ∀ each ∈ live.erase thing, after each = holds each)
    (own : holds thing = some object) (apart : other ≠ object) :
    holders (live.erase thing) after other = holders live holds other := by
  have whole := holders_insert_of_ne (fun each inside => (same each inside).symm) own apart
  rw [Finset.insert_erase member] at whole
  exact whole.symm

end P3arsec.Lib
