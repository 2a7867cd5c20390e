import Mathlib

/-!
# Loops over lists

A counted loop of the modelled programs is a fold over the list of its iterations. The
lemmas here turn such a fold into the value it leaves in one entry of a table: the changes
of the iterations that hit the entry, in loop order (`foldl_modifyAt`), or, where the
changes add, the sum of their amounts (`foldl_addAt`). A fallible loop whose body never
faults on the states it meets is the fold of the pure body (`foldlM_eq_foldl`).
-/

namespace P3arsec.Lib

variable {ι κ μ σ : Type*}

section Tables

variable [DecidableEq κ]

/-- Apply a change to one entry of a table. -/
def modifyAt (table : κ → μ) (key : κ) (change : μ → μ) : κ → μ :=
  Function.update table key (change (table key))

/-- The entry of the key. -/
@[simp] theorem modifyAt_same (table : κ → μ) (key : κ) (change : μ → μ) :
    modifyAt table key change key = change (table key) := by
  simp [modifyAt]

/-- The other entries. -/
@[simp] theorem modifyAt_ne (table : κ → μ) {key other : κ} (change : μ → μ)
    (distinct : other ≠ key) : modifyAt table key change other = table other := by
  simp [modifyAt, distinct]

/-- A loop of entry changes leaves in an entry the changes of the iterations that hit it. -/
theorem foldl_modifyAt (events : List ι) (key : ι → κ) (change : ι → μ → μ) (table : κ → μ)
    (entry : κ) :
    events.foldl (fun table event => modifyAt table (key event) (change event)) table entry =
      (events.filter (fun event => key event = entry)).foldl
        (fun value event => change event value) (table entry) := by
  induction events generalizing table with
  | nil => rfl
  | cons event events ih =>
    rw [List.foldl_cons, ih]
    by_cases hit : key event = entry
    · subst hit
      simp
    · simp [hit, Ne.symm hit]

/-- A loop that changes every entry once. -/
theorem foldl_modifyAt_all {events : List κ} (nodup : events.Nodup)
    (complete : ∀ entry, entry ∈ events) (change : κ → μ → μ) (table : κ → μ) :
    events.foldl (fun table event => modifyAt table event (change event)) table =
      fun entry => change entry (table entry) := by
  funext entry
  have one : events.filter (fun event => decide (event = entry)) = [entry] := by
    have same : events.filter (fun event => decide (event = entry)) = events.filter (· == entry)
      := by
      apply List.filter_congr
      intro event _
      rw [beq_eq_decide]
    rw [same, List.filter_beq, List.count_eq_one_of_mem nodup (complete entry)]
    rfl
  refine (foldl_modifyAt events id change table entry).trans ?_
  simp only [id_eq, one, List.foldl_cons, List.foldl_nil]

/-- Add an amount to one entry of a table. -/
def addAt [Add μ] (table : κ → μ) (key : κ) (amount : μ) : κ → μ :=
  modifyAt table key (· + amount)

/-- The amount is added to the entry of the key. -/
@[simp] theorem addAt_same [Add μ] (table : κ → μ) (key : κ) (amount : μ) :
    addAt table key amount key = table key + amount := by
  simp [addAt]

/-- The other entries are kept. -/
@[simp] theorem addAt_ne [Add μ] (table : κ → μ) {key other : κ} (amount : μ)
    (distinct : other ≠ key) : addAt table key amount other = table other := by
  simp [addAt, distinct]

/-- A subtraction adds the opposite. -/
theorem modifyAt_sub [AddGroup μ] (table : κ → μ) (key : κ) (amount : μ) :
    modifyAt table key (· - amount) = addAt table key (-amount) := by
  simp only [addAt, sub_eq_add_neg]

/-- An entry after an addition, in one expression. -/
theorem addAt_apply [AddZeroClass μ] (table : κ → μ) (key entry : κ) (amount : μ) :
    addAt table key amount entry = table entry + if key = entry then amount else 0 := by
  by_cases hit : key = entry
  · subst hit
    simp
  · simp [hit, Ne.symm hit]

/-- A loop of paired additions leaves in an entry the sum of the amounts added to it. -/
theorem foldl_addAt_pair [AddCommMonoid μ] (events : List ι) (first second : ι → κ)
    (amount amount' : ι → μ) (table : κ → μ) (entry : κ) :
    events.foldl (fun table event =>
        addAt (addAt table (first event) (amount event)) (second event) (amount' event))
        table entry =
      table entry + (events.map fun event => (if first event = entry then amount event else 0) +
        if second event = entry then amount' event else 0).sum := by
  induction events generalizing table with
  | nil => simp
  | cons event events ih =>
    rw [List.foldl_cons, ih, addAt_apply, addAt_apply, List.map_cons, List.sum_cons]
    simp only [add_assoc]

end Tables

/-- A fallible loop is the fold of a pure body when the two agree on every state of an
invariant that the pure body keeps. -/
theorem foldlM_eq_foldl {body : σ → ι → Option σ} {pure : σ → ι → σ} (inv : σ → Prop)
    (events : List ι)
    (agree : ∀ state, inv state → ∀ event ∈ events, body state event = some (pure state event))
    (keeps : ∀ state, inv state → ∀ event ∈ events, inv (pure state event))
    (state : σ) (start : inv state) :
    events.foldlM body state = some (events.foldl pure state) := by
  induction events generalizing state with
  | nil => rfl
  | cons event events ih =>
    rw [List.foldlM_cons, agree state start event List.mem_cons_self, List.foldl_cons]
    exact ih (fun state inside other member =>
        agree state inside other (List.mem_cons_of_mem event member))
      (fun state inside other member =>
        keeps state inside other (List.mem_cons_of_mem event member))
      _ (keeps state start event List.mem_cons_self)

/-- A fallible loop that collects results, where every iteration has one. -/
theorem mapM_eq_map {body : ι → Option κ} {pure : ι → κ} (events : List ι)
    (agree : ∀ event ∈ events, body event = some (pure event)) :
    events.mapM body = some (events.map pure) := by
  induction events with
  | nil => rfl
  | cons event events ih =>
    rw [List.mapM_cons, agree event List.mem_cons_self,
      ih fun other member => agree other (List.mem_cons_of_mem event member)]
    rfl

/-- The results of a fallible loop are those of its iterations. -/
theorem mem_of_mapM {body : ι → Option κ} {events : List ι} {results : List κ}
    (runs : events.mapM body = some results) :
    (∀ event ∈ events, ∃ result ∈ results, body event = some result) ∧
      ∀ result ∈ results, ∃ event ∈ events, body event = some result := by
  induction events generalizing results with
  | nil =>
    cases runs
    simp
  | cons event events ih =>
    rw [List.mapM_cons] at runs
    obtain ⟨first, here, runs⟩ := Option.bind_eq_some_iff.mp runs
    obtain ⟨others, rest, same⟩ := Option.bind_eq_some_iff.mp runs
    cases same
    obtain ⟨forth, back⟩ := ih rest
    refine ⟨?_, ?_⟩
    · intro other member
      rcases List.mem_cons.mp member with rfl | member
      · exact ⟨first, List.mem_cons_self, here⟩
      · obtain ⟨result, found, runs⟩ := forth other member
        exact ⟨result, List.mem_cons_of_mem _ found, runs⟩
    · intro result member
      rcases List.mem_cons.mp member with rfl | member
      · exact ⟨event, List.mem_cons_self, here⟩
      · obtain ⟨other, found, runs⟩ := back result member
        exact ⟨other, List.mem_cons_of_mem _ found, runs⟩

/-- Two nested fallible loops are one loop over the concatenated work. -/
theorem foldlM_flatMap (outer : List κ) (inner : κ → List ι) (body : σ → ι → Option σ)
    (state : σ) :
    (outer.flatMap inner).foldlM body state =
      outer.foldlM (fun state event => (inner event).foldlM body state) state := by
  induction outer generalizing state with
  | nil => rfl
  | cons event outer ih =>
    rw [List.flatMap_cons, List.foldlM_append, List.foldlM_cons]
    apply bind_congr
    exact ih

/-- An invariant that every iteration keeps holds after the loop. -/
theorem foldl_keeps {step : σ → ι → σ} (inv : σ → Prop) (events : List ι)
    (keeps : ∀ state, inv state → ∀ event ∈ events, inv (step state event))
    (state : σ) (start : inv state) : inv (events.foldl step state) := by
  induction events generalizing state with
  | nil => exact start
  | cons event events ih =>
    exact ih (fun state inside other member =>
        keeps state inside other (List.mem_cons_of_mem event member))
      _ (keeps state start event List.mem_cons_self)

/-- Iterations that do not interfere. Each one turns its own precondition into its own
postcondition, and none spoils a condition of another; then all postconditions hold at the end,
in whatever order the iterations come. -/
theorem foldl_forEach (step : σ → ι → σ) (inv : σ → Prop) (pre post : ι → σ → Prop)
    (events : List ι) (nodup : events.Nodup)
    (runs : ∀ state, ∀ event ∈ events, inv state → pre event state →
      inv (step state event) ∧ post event (step state event))
    (keepsPre : ∀ state, ∀ event ∈ events, ∀ other ∈ events, other ≠ event → inv state →
      pre event state → pre other state → pre other (step state event))
    (keepsPost : ∀ state, ∀ event ∈ events, ∀ other ∈ events, other ≠ event → inv state →
      pre event state → post other state → post other (step state event))
    (state : σ) (start : inv state) (ready : ∀ event ∈ events, pre event state) :
    inv (events.foldl step state) ∧ ∀ event ∈ events, post event (events.foldl step state) := by
  -- the postconditions of the iterations that are done are carried along in `held`
  suffices general : ∀ (rest : List ι) (held : σ → Prop) (state : σ), rest ⊆ events →
      rest.Nodup → inv state → (∀ event ∈ rest, pre event state) →
      (∀ state, ∀ event ∈ rest, inv state → pre event state → held state →
        held (step state event)) → held state →
      inv (rest.foldl step state) ∧ (∀ event ∈ rest, post event (rest.foldl step state)) ∧
        held (rest.foldl step state) by
    obtain ⟨kept, done, -⟩ := general events (fun _ => True) state (fun _ member => member) nodup
      start ready (fun _ _ _ _ _ _ => trivial) trivial
    exact ⟨kept, done⟩
  intro rest
  induction rest with
  | nil => exact fun held state _ _ start _ _ holds => ⟨start, by simp, holds⟩
  | cons event rest ih =>
    intro held state inside distinct start ready keeps holds
    obtain ⟨fresh, distinct⟩ := List.nodup_cons.mp distinct
    have member : event ∈ events := inside List.mem_cons_self
    have others : rest ⊆ events := fun _ found => inside (List.mem_cons_of_mem _ found)
    have here := ready event List.mem_cons_self
    obtain ⟨kept, done⟩ := runs state event member start here
    have apart : ∀ other ∈ rest, other ≠ event := by
      rintro other found rfl
      exact fresh found
    have result := ih (fun state => held state ∧ post event state) (step state event) others
      distinct kept
      (fun other found => keepsPre state event member other (others found) (apart other found)
        start here (ready other (List.mem_cons_of_mem _ found)))
      (fun state other found start ready both =>
        ⟨keeps state other (List.mem_cons_of_mem _ found) start ready both.1,
          keepsPost state other (others found) event member (apart other found).symm start ready
            both.2⟩)
      ⟨keeps state event List.mem_cons_self start here holds, done⟩
    obtain ⟨kept, finished, held, first⟩ := result
    refine ⟨kept, ?_, held⟩
    intro other found
    rcases List.mem_cons.mp found with rfl | found
    · exact first
    · exact finished other found

/-- Keeping one image of each element that passes a test is a filter before a map. -/
theorem flatMap_if_singleton (events : List ι) (test : ι → Prop) [DecidablePred test]
    (image : ι → κ) :
    (events.flatMap fun event => if test event then [image event] else []) =
      (events.filter (fun event => test event)).map image := by
  induction events with
  | nil => rfl
  | cons event events ih =>
    rw [List.flatMap_cons, ih]
    by_cases passes : test event <;> simp [passes]

/-- A test that singles out one element of a list without repetitions filters to it. -/
theorem filter_eq_singleton [DecidableEq ι] {events : List ι} (nodup : events.Nodup)
    {event : ι} (member : event ∈ events) (test : ι → Bool)
    (only : ∀ other ∈ events, test other = true ↔ other = event) :
    events.filter test = [event] := by
  have same : events.filter test = events.filter (· == event) := by
    apply List.filter_congr
    intro other inside
    rw [Bool.eq_iff_iff, only other inside, beq_iff_eq]
  rw [same, List.filter_beq, List.count_eq_one_of_mem nodup member]
  rfl

/-- A nested loop visits nothing twice when no inner loop does and no two inner loops visit the
same element. -/
theorem nodup_flatMap_of_unique {outer : List ι} {inner : ι → List κ} (nodup : outer.Nodup)
    (each : ∀ item ∈ outer, (inner item).Nodup)
    (unique : ∀ item ∈ outer, ∀ other ∈ outer, ∀ element ∈ inner item, element ∈ inner other →
      item = other) : (outer.flatMap inner).Nodup := by
  refine List.nodup_flatMap.mpr ⟨each, ?_⟩
  apply List.Pairwise.imp_of_mem _ nodup
  intro item other member member' distinct
  simp only [Function.onFun, List.disjoint_left]
  intro element inside inside'
  exact distinct (unique item member other member' element inside inside')

/-- A nested loop visits nothing twice when no inner loop does and every visited element tells
which outer iteration it belongs to. -/
theorem nodup_flatMap_of_tag {outer : List ι} {inner : ι → List κ} (tag : κ → ι)
    (nodup : outer.Nodup) (each : ∀ item ∈ outer, (inner item).Nodup)
    (tagged : ∀ item ∈ outer, ∀ element ∈ inner item, tag element = item) :
    (outer.flatMap inner).Nodup := by
  apply nodup_flatMap_of_unique nodup each
  intro item member other member' element inside inside'
  rw [← tagged item member element inside, ← tagged other member' element inside']

/-- Assignments to a table, one after the other: an entry that gets one value only has it. -/
theorem foldl_update [DecidableEq κ] {events : List ι} {key : ι → κ} {value : ι → μ}
    (table : κ → μ) {entry : κ} {amount : μ}
    (same : ∀ event ∈ events, key event = entry → value event = amount)
    (assigned : ∃ event ∈ events, key event = entry) :
    events.foldl (fun table event => Function.update table (key event) (value event)) table entry =
      amount := by
  induction events using List.reverseRecOn with
  | nil =>
    obtain ⟨event, member, -⟩ := assigned
    cases member
  | append_singleton events last ih =>
    rw [List.foldl_append, List.foldl_cons, List.foldl_nil]
    by_cases here : key last = entry
    · rw [here, Function.update_self]
      exact same last (by simp) here
    · rw [Function.update_of_ne (Ne.symm here)]
      refine ih (fun event member => same event (by simp [member])) ?_
      obtain ⟨event, member, assigned⟩ := assigned
      rcases List.mem_append.mp member with before | now
      · exact ⟨event, before, assigned⟩
      · rw [List.mem_singleton.mp now] at assigned
        exact absurd assigned here

/-- The amounts that the pairs of a list give to one of their members, summed over all
partners, each as often as the list pairs it with the member. -/
theorem sum_pairs_eq [DecidableEq ι] [BEq (ι × ι)] [LawfulBEq (ι × ι)] [AddCommMonoid μ]
    (pairs : List (ι × ι)) (all : Finset ι)
    (inside : ∀ pair ∈ pairs, pair.1 ∈ all ∧ pair.2 ∈ all) (one : ι) (amount : ι → ι → μ) :
    (pairs.map fun pair => (if pair.1 = one then amount pair.1 pair.2 else 0) +
        if pair.2 = one then amount pair.2 pair.1 else 0).sum =
      ∑ other ∈ all,
        (pairs.count (one, other) + pairs.count (other, one)) • amount one other := by
  induction pairs with
  | nil => simp
  | cons pair pairs ih =>
    obtain ⟨e, f⟩ := pair
    obtain ⟨first, second⟩ := inside (e, f) List.mem_cons_self
    have left : (if e = one then amount e f else 0) =
        ∑ other ∈ all, (if (e, f) = (one, other) then 1 else 0) • amount one other := by
      by_cases here : e = one
      · subst here
        simp [second]
      · simp [here]
    have right : (if f = one then amount f e else 0) =
        ∑ other ∈ all, (if (e, f) = (other, one) then 1 else 0) • amount one other := by
      by_cases here : f = one
      · subst here
        simp [first]
      · simp [here]
    rw [List.map_cons, List.sum_cons, left, right,
      ih fun other member => inside other (List.mem_cons_of_mem _ member)]
    simp only [← Finset.sum_add_distrib, ← add_nsmul]
    apply Finset.sum_congr rfl
    intro other _
    simp only [List.count_cons, beq_iff_eq]
    congr 1
    omega

/-- A loop that adds up amounts. -/
theorem foldl_add_map [AddCommMonoid μ] (amount : ι → μ) (first : μ) (events : List ι) :
    events.foldl (fun sum event => sum + amount event) first = first + (events.map amount).sum := by
  induction events generalizing first with
  | nil => simp
  | cons event events ih => rw [List.foldl_cons, ih, List.map_cons, List.sum_cons, add_assoc]

/-- A loop that takes a maximum stays below a bound when all it looks at does. -/
theorem foldl_max_le_iff [LinearOrder μ] (amount : ι → μ) (first bound : μ) (events : List ι) :
    events.foldl (fun most event => max most (amount event)) first ≤ bound ↔
      first ≤ bound ∧ ∀ event ∈ events, amount event ≤ bound := by
  induction events generalizing first with
  | nil => simp
  | cons event events ih =>
    rw [List.foldl_cons, ih, max_le_iff, List.forall_mem_cons, and_assoc]

/-- A loop that adds up numbers. -/
theorem foldl_add_range [AddCommMonoid μ] (amount : Nat → μ) (first : μ) (n : Nat) :
    (List.range n).foldl (fun sum i => sum + amount i) first =
      first + ∑ i ∈ Finset.range n, amount i := by
  induction n with
  | zero => simp
  | succ n ih =>
    rw [List.range_succ, List.foldl_append, ih, Finset.sum_range_succ, ← add_assoc]
    rfl

end P3arsec.Lib
