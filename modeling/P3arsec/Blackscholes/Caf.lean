import P3arsec.Lib.Chunks

/-!
# The map of actors

In the third version of the actors `main` copies the options into a vector and sends it to
`map_func`, which sends it to its workers. A worker prices its part of the vector, and `map_func`
merges the parts in the order in which they come back. For every order it delivers the price of
every element of the vector (`mapFunc_correct`).

But the vector is made with as many empty elements as there are options before the options are
appended to it, and the delivered prices are kept in `final_res`, while the output is written from
`prices`, to which this version never writes.
-/

namespace P3arsec.Blackscholes

open P3arsec.Lib

/-- `fptype`, as the word of a `float`. -/
abbrev Fptype := BitVec 32

/-- `NUM_RUNS`. -/
def numRuns : Nat := 100

/-- `OptionData`, with the fields that are priced. -/
structure OptionData where
  /-- The spot price. -/
  s : Fptype
  /-- The strike price. -/
  strike : Fptype
  /-- The risk-free interest rate. -/
  r : Fptype
  /-- The volatility. -/
  v : Fptype
  /-- The time to maturity. -/
  t : Fptype
  /-- `OptionType`. -/
  optionType : Char
  deriving DecidableEq, Repr

/-- `DataCont`. -/
structure DataCont where
  /-- Whether the option is a put. -/
  otype : Int
  /-- The spot price. -/
  sptprice : Fptype
  /-- The strike price. -/
  strike : Fptype
  /-- The interest rate. -/
  rate : Fptype
  /-- The volatility. -/
  volatility : Fptype
  /-- The time to maturity. -/
  otime : Fptype
  deriving DecidableEq, Repr

/-- The arguments of `BlkSchlsEqEuroNoDiv` and its result. -/
abbrev Equation :=
  (sptprice strike rate volatility time : Fptype) → (otype : Int) → (timet : Fptype) → Fptype

/-- The price of an element. -/
def DataCont.price (equation : Equation) (data : DataCont) : Fptype :=
  equation data.sptprice data.strike data.rate data.volatility data.otime data.otype 0

/-- The entries of the arrays for an option. -/
def OptionData.cont (option : OptionData) : DataCont :=
  ⟨if option.optionType = 'P' then 1 else 0, option.s, option.strike, option.r, option.v, option.t⟩

/-- An element that is made with the vector. -/
def DataCont.empty : DataCont := ⟨0, 0, 0, 0, 0, 0⟩

/-- `data_vec`. -/
def dataVec (options : List OptionData) : List DataCont :=
  options.foldl (fun vec option => vec ++ [option.cont])
    (List.replicate options.length DataCont.empty)

/-- A store to an entry of a vector. -/
def store (vec : List Fptype) (i : Nat) (value : Fptype) : Option (List Fptype) :=
  if i < vec.length then some (vec.set i value) else none

/-- What a worker returns. -/
structure Reply where
  /-- `partial_prices`. -/
  prices : List Fptype
  /-- The begin of the part. -/
  start : Nat
  /-- The end of the part. -/
  stop : Nat
  deriving DecidableEq, Repr

/-- `map_worker`. -/
def mapWorker (equation : Equation) (i nw : Nat) (dataVec : List DataCont) : Option Reply := do
  let nv := dataVec.length
  let chunk := nv / nw
  let plus := nv % nw
  let start := i * chunk + min plus i
  let chunk := if i < plus then chunk + 1 else chunk
  let stop := start + chunk
  let loop ← (List.range' start (stop - start)).foldlM (fun loop i => do
    let data ← dataVec[i]?
    let prices ← store loop.1 loop.2 (data.price equation)
    some (prices, loop.2 + 1)) (List.replicate chunk 0, 0)
  some ⟨loop.1, start, stop⟩

/-- The variables of a request. -/
structure Merge where
  /-- `res`. -/
  res : List Fptype
  /-- `n_res`. -/
  nRes : Nat
  /-- What was delivered. -/
  delivered : Option (List Fptype)
  deriving DecidableEq, Repr

/-- `update_cb`. -/
def Merge.updateCb (merge : Merge) (reply : Reply) : Option Merge := do
  let loop ← (List.range' reply.start (reply.stop - reply.start)).foldlM (fun loop i => do
    let price ← reply.prices[loop.2]?
    let res ← store loop.1 i price
    some (res, loop.2 + 1)) (merge.res, 0)
  let nRes := merge.nRes - 1
  some ⟨loop.1, nRes, if nRes = 0 then some loop.1 else merge.delivered⟩

/-- `map_func`: what it delivers, for an order in which the workers return. -/
def mapFunc (equation : Equation) (nw : Nat) (dataVec : List DataCont) (order : List Nat) :
    Option (List Fptype) := do
  let merge ← order.foldlM (fun merge i => do
    let reply ← mapWorker equation i nw dataVec
    merge.updateCb reply) (⟨List.replicate dataVec.length 0, nw, none⟩ : Merge)
  merge.delivered

/-- `final_res` after the runs, each with an order in which the workers return. -/
def finalRes (equation : Equation) (nw : Nat) (options : List OptionData)
    (orders : List (List Nat)) : Option (List Fptype) :=
  orders.foldlM (fun _ order => mapFunc equation nw (dataVec options) order)
    (List.replicate options.length 0)

/-- The output file. -/
structure Output where
  /-- The first line. -/
  numOptions : Nat
  /-- The other lines. -/
  prices : List Fptype
  deriving DecidableEq, Repr

/-- `main`, where `prices` is the memory that is allocated for the prices. -/
def main (equation : Equation) (nw : Nat) (options : List OptionData) (orders : List (List Nat))
    (prices : Nat → Fptype) : Option Output := do
  let _ ← finalRes equation nw options orders
  some ⟨options.length, (List.range options.length).map prices⟩

/-- A loop that stores values in a row. In each iteration the place is `place` and the value is
`value`, both given by the two counters of the loop. -/
theorem foldlM_store (place : Nat → Nat → Nat) (value : Nat → Nat → Option Fptype)
    (result : Nat → Fptype) (count start j first : Nat) (vec : List Fptype)
    (places : ∀ k < count, place (start + k) (j + k) = first + k)
    (values : ∀ k < count, value (start + k) (j + k) = some (result (first + k)))
    (room : first + count ≤ vec.length) :
    ∃ stored, (List.range' start count).foldlM (fun loop i => do
        let price ← value i loop.2
        let vec ← store loop.1 (place i loop.2) price
        some (vec, loop.2 + 1)) (vec, j) = some (stored, j + count) ∧
      stored.length = vec.length ∧
      ∀ m, stored[m]? = if first ≤ m ∧ m < first + count then some (result m) else vec[m]? := by
  induction count generalizing start j first vec with
  | zero =>
    refine ⟨vec, rfl, rfl, ?_⟩
    intro m
    rw [if_neg (by omega)]
  | succ count ih =>
    have here := values 0 (by omega)
    have there := places 0 (by omega)
    rw [Nat.add_zero, Nat.add_zero] at here there
    obtain ⟨stored, runs, length, entries⟩ := ih (start + 1) (j + 1) (first + 1)
      (vec.set first (result first))
      (fun k less => by
        have next := places (k + 1) (by omega)
        rw [show start + 1 + k = start + (k + 1) by omega, show j + 1 + k = j + (k + 1) by omega,
          next]
        omega)
      (fun k less => by
        have next := values (k + 1) (by omega)
        rw [show start + 1 + k = start + (k + 1) by omega, show j + 1 + k = j + (k + 1) by omega,
          next, show first + 1 + k = first + (k + 1) by omega])
      (by rw [List.length_set]; omega)
    refine ⟨stored, ?_, by rw [length, List.length_set], ?_⟩
    · have body : (do
          let price ← value start j
          let vec ← store vec (place start j) price
          some (vec, j + 1)) = some (vec.set first (result first), j + 1) := by
        rw [here, there]
        unfold store
        simp [show first < vec.length by omega]
      rw [List.range'_succ, List.foldlM_cons, body, show j + (count + 1) = j + 1 + count by omega]
      exact runs
    · intro m
      rw [entries m]
      by_cases later : first + 1 ≤ m ∧ m < first + 1 + count
      · rw [if_pos later, if_pos (by omega)]
      · rw [if_neg later, List.getElem?_set]
        by_cases same : first = m
        · subst same
          rw [if_pos rfl, if_pos (by omega), if_pos (by omega)]
        · rw [if_neg same, if_neg (by omega)]

section Map

variable (equation : Equation) {nw : Nat} (dataVec : List DataCont)

/-- The price of an element of the vector. -/
def priceAt (m : Nat) : Fptype := (dataVec.getD m DataCont.empty).price equation

variable {dataVec}

/-- A worker returns the prices of its part. -/
theorem mapWorker_some {i : Nat} (known : i < nw) :
    ∃ prices, mapWorker equation i nw dataVec =
        some ⟨prices, Chunks.begins dataVec.length nw i,
          Chunks.begins dataVec.length nw i + Chunks.size dataVec.length nw i⟩ ∧
      ∀ k < Chunks.size dataVec.length nw i,
        prices[k]? = some (priceAt equation dataVec (Chunks.begins dataVec.length nw i + k)) := by
  have inside : Chunks.begins dataVec.length nw i + Chunks.size dataVec.length nw i ≤
      dataVec.length := Chunks.ends_le known
  obtain ⟨stored, runs, -, entries⟩ := foldlM_store (fun _ j => j)
    (fun i _ => (dataVec[i]?).map (DataCont.price equation))
    (fun m => priceAt equation dataVec (Chunks.begins dataVec.length nw i + m))
    (Chunks.size dataVec.length nw i) (Chunks.begins dataVec.length nw i) 0 0
    (List.replicate (Chunks.size dataVec.length nw i) 0) (fun _ _ => rfl)
    (fun k less => by
      have entry : Chunks.begins dataVec.length nw i + k < dataVec.length := by omega
      simp only [priceAt, Nat.zero_add, List.getElem?_eq_getElem entry, Option.map_some,
        List.getD_eq_getElem?_getD, Option.getD_some])
    (by simp)
  refine ⟨stored, ?_, ?_⟩
  · unfold mapWorker
    show Option.bind _ _ = _
    rw [Nat.add_sub_cancel_left]
    have loop : ∀ (loop : List Fptype × Nat) (i : Nat), (do
        let data ← dataVec[i]?
        let prices ← store loop.1 loop.2 (data.price equation)
        some (prices, loop.2 + 1)) = (do
        let price ← (dataVec[i]?).map (DataCont.price equation)
        let prices ← store loop.1 loop.2 price
        some (prices, loop.2 + 1)) := by
      intro loop i
      cases dataVec[i]? <;> rfl
    simp only [loop]
    exact Option.bind_eq_some_iff.mpr ⟨_, runs, rfl⟩
  · intro k less
    rw [entries k, if_pos (by omega)]

/-- A reply is merged: the prices of its part are in the vector, the others are as before. -/
theorem updateCb_some {i : Nat} (known : i < nw) (merge : Merge)
    (length : merge.res.length = dataVec.length) :
    ∃ res, (mapWorker equation i nw dataVec).bind merge.updateCb =
        some ⟨res, merge.nRes - 1, if merge.nRes - 1 = 0 then some res else merge.delivered⟩ ∧
      res.length = dataVec.length ∧
      ∀ m, res[m]? = if Chunks.begins dataVec.length nw i ≤ m ∧
          m < Chunks.begins dataVec.length nw i + Chunks.size dataVec.length nw i
        then some (priceAt equation dataVec m) else merge.res[m]? := by
  have inside : Chunks.begins dataVec.length nw i + Chunks.size dataVec.length nw i ≤
      dataVec.length := Chunks.ends_le known
  obtain ⟨prices, worked, values⟩ := mapWorker_some equation known
  obtain ⟨stored, runs, same, entries⟩ := foldlM_store (fun i _ => i) (fun _ j => prices[j]?)
    (priceAt equation dataVec) (Chunks.size dataVec.length nw i)
    (Chunks.begins dataVec.length nw i) 0 (Chunks.begins dataVec.length nw i) merge.res
    (fun _ _ => rfl) (fun k less => by rw [Nat.zero_add]; exact values k less) (by omega)
  refine ⟨stored, ?_, same.trans length, entries⟩
  rw [worked, Option.bind_some]
  unfold Merge.updateCb
  rw [Nat.add_sub_cancel_left]
  exact Option.bind_eq_some_iff.mpr ⟨_, runs, rfl⟩

/-- The replies that are still to come fill their parts, and the last one delivers. -/
theorem merge_some (rest : List Nat) (known : ∀ i ∈ rest, i < nw) (merge : Merge)
    (length : merge.res.length = dataVec.length) (left : merge.nRes = rest.length) :
    ∃ last, rest.foldlM (fun merge i => do
        let reply ← mapWorker equation i nw dataVec
        merge.updateCb reply) merge = some last ∧
      last.res.length = dataVec.length ∧ (rest ≠ [] → last.delivered = some last.res) ∧
      ∀ m, (merge.res[m]? = some (priceAt equation dataVec m) ∨
          ∃ i ∈ rest, Chunks.begins dataVec.length nw i ≤ m ∧
            m < Chunks.begins dataVec.length nw i + Chunks.size dataVec.length nw i) →
        last.res[m]? = some (priceAt equation dataVec m) := by
  induction rest generalizing merge with
  | nil =>
    refine ⟨merge, rfl, length, fun some_ => absurd rfl some_, ?_⟩
    rintro m (filled | ⟨i, member, -⟩)
    · exact filled
    · cases member
  | cons i rest ih =>
    obtain ⟨res, runs, length, entries⟩ :=
      updateCb_some equation (known i List.mem_cons_self) merge length
    rw [left, List.length_cons, Nat.add_sub_cancel] at runs
    obtain ⟨last, others, lengths, delivers, filled⟩ :=
      ih (fun other member => known other (List.mem_cons_of_mem i member))
        ⟨res, rest.length, if rest.length = 0 then some res else merge.delivered⟩ length rfl
    refine ⟨last, ?_, lengths, ?_, ?_⟩
    · rw [List.foldlM_cons]
      exact Option.bind_eq_some_iff.mpr ⟨_, runs, others⟩
    · intro _
      cases rest with
      | nil =>
        cases others
        rfl
      | cons other rest => exact delivers (List.cons_ne_nil other rest)
    · rintro m (before | ⟨other, member, part⟩)
      · refine filled m (.inl ?_)
        rw [entries m]
        split
        · rfl
        · exact before
      · rcases List.mem_cons.mp member with rfl | member
        · refine filled m (.inl ?_)
          rw [entries m, if_pos part]
        · exact filled m (.inr ⟨other, member, part⟩)

variable {equation} in
/-- For every order in which the workers return the prices of all elements are delivered, in the
order of the vector. -/
theorem mapFunc_correct (positive : 0 < nw) {order : List Nat}
    (every : order.Perm (List.range nw)) :
    mapFunc equation nw dataVec order = some (dataVec.map (DataCont.price equation)) := by
  have count : nw = order.length := by rw [every.length_eq, List.length_range]
  obtain ⟨last, runs, length, delivers, filled⟩ := merge_some equation order
    (fun i member => List.mem_range.mp (every.mem_iff.mp member))
    ⟨List.replicate dataVec.length 0, nw, none⟩ (List.length_replicate ..) count
  have some_ : order ≠ [] := by
    rintro rfl
    rw [List.length_nil] at count
    omega
  unfold mapFunc
  rw [runs, Option.bind_eq_bind, Option.bind_some, delivers some_]
  refine congrArg some (List.ext_getElem? fun m => ?_)
  rw [List.getElem?_map]
  by_cases known : m < dataVec.length
  · obtain ⟨i, less, part⟩ := Chunks.exists_part positive known
    rw [filled m (.inr ⟨i, every.mem_iff.mpr (List.mem_range.mpr less), part⟩), priceAt,
      List.getD_eq_getElem?_getD, List.getElem?_eq_getElem known, Option.getD_some, Option.map_some]
  · rw [List.getElem?_eq_none (by omega), List.getElem?_eq_none (by omega), Option.map_none]

end Map

/-- The orders in which the workers return in the runs. -/
def Orders (nw : Nat) (orders : List (List Nat)) : Prop :=
  orders.length = numRuns ∧ ∀ order ∈ orders, order.Perm (List.range nw)

/-- The delivered prices: those of the empty elements, and those of the options after them. -/
theorem finalRes_eq {equation : Equation} {nw : Nat} (positive : 0 < nw) (options : List OptionData)
    {orders : List (List Nat)} (runs : Orders nw orders) :
    finalRes equation nw options orders =
      some ((dataVec options).map (DataCont.price equation)) := by
  have all : ∀ (orders : List (List Nat)) (before : List Fptype), orders ≠ [] →
      (∀ order ∈ orders, order.Perm (List.range nw)) →
      orders.foldlM (fun _ order => mapFunc equation nw (dataVec options) order) before =
        some ((dataVec options).map (DataCont.price equation)) := by
    intro orders
    induction orders with
    | nil => exact fun _ some_ => absurd rfl some_
    | cons order orders ih =>
      intro before _ every
      rw [List.foldlM_cons, mapFunc_correct positive (every order List.mem_cons_self),
        Option.bind_eq_bind, Option.bind_some]
      cases orders with
      | nil => rfl
      | cons next orders =>
        exact ih _ (List.cons_ne_nil next orders)
          fun order member => every order (List.mem_cons_of_mem _ member)
  refine all orders _ ?_ runs.2
  rintro rfl
  have none_ := runs.1
  cases none_

/-- `main` writes the prices of the options, in their order, for every order in which the workers
return and for all values that the memory of the prices has. -/
def Correct (equation : Equation) (nw : Nat) (options : List OptionData) : Prop :=
  ∀ orders prices, Orders nw orders →
    main equation nw options orders prices =
      some ⟨options.length, options.map fun option => option.cont.price equation⟩

/-- `main` writes the prices of the options exactly where there is no option. -/
theorem main_correct_iff (equation : Equation) {nw : Nat} (positive : 0 < nw)
    (options : List OptionData) : Correct equation nw options ↔ options = [] := by
  constructor
  · intro correct
    cases options with
    | nil => rfl
    | cons option options =>
      -- the memory may hold any value, also one that is not the price
      have runs : Orders nw (List.replicate numRuns (List.range nw)) :=
        ⟨List.length_replicate .., fun order member => by rw [List.eq_of_mem_replicate member]⟩
      have written := correct _ (fun _ => option.cont.price equation + 1) runs
      unfold main at written
      rw [finalRes_eq positive _ runs, Option.bind_eq_bind, Option.bind_some, Option.some.injEq,
        Output.mk.injEq, List.length_cons, List.range_succ_eq_map, List.map_cons,
        List.map_cons, List.cons.injEq] at written
      have same := written.2.1
      exact absurd same (by simp)
  · rintro rfl orders prices runs
    unfold main
    rw [finalRes_eq positive _ runs]
    rfl

/-- With two workers `main` is wrong for two options and right for none. -/
theorem main_correct_iff_sample :
    ¬Correct (fun s _ _ _ _ _ _ => s) 2 [⟨7, 7, 0, 0, 1, 'C'⟩, ⟨9, 8, 0, 0, 1, 'P'⟩] ∧
      Correct (fun s _ _ _ _ _ _ => s) 2 [] :=
  ⟨fun correct => absurd ((main_correct_iff _ (by decide) _).mp correct) (by simp),
    (main_correct_iff _ (by decide) []).mpr rfl⟩

/-- With one option the output is what the memory of the prices held. -/
theorem main_incorrect : ¬Correct (fun s _ _ _ _ _ _ => s) 1 [⟨7, 7, 0, 0, 1, 'C'⟩] := by
  intro correct
  have runs : Orders 1 (List.replicate numRuns (List.range 1)) :=
    ⟨List.length_replicate .., fun order member => by rw [List.eq_of_mem_replicate member]⟩
  have written := correct _ (fun _ => 5) runs
  unfold main at written
  rw [finalRes_eq (by decide) _ runs] at written
  revert written
  decide

end P3arsec.Blackscholes
