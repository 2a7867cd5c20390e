import Mathlib

/-!
# Facility location

Clients are served by open facilities; an open facility costs a fixed amount and a client the
price of the facility that serves it. The local move to a location opens a facility there, lets
every client that is strictly cheaper off go over to it, and closes each facility whose closing
saves money when all its clients go over. The change of the total cost is computed from the
clients that go over and the savings of the facilities (`total_after`), and the move keeps a plan
well formed (`WellFormed.after`).
-/

namespace P3arsec.Lib

variable {ι R : Type} [DecidableEq ι] [CommRing R] [LinearOrder R]

/-- Open facilities, the facility that serves each client, and what each client costs. -/
structure Plan (ι R : Type) where
  /-- The clients. -/
  clients : Finset ι
  /-- The open facilities. -/
  opened : Finset ι
  /-- The facility that serves a client. -/
  assign : ι → ι
  /-- What a client costs. -/
  cost : ι → R

namespace Plan

variable (plan : Plan ι R) (fixed : R) (price : ι → R) (location : ι)

/-- The cost of a plan, when an open facility costs a fixed amount. -/
def total : R := fixed * plan.opened.card + ∑ client ∈ plan.clients, plan.cost client

/-- A client is strictly cheaper off at the new price. -/
def Switches (client : ι) : Prop := price client < plan.cost client

instance (client : ι) : Decidable (plan.Switches price client) :=
  inferInstanceAs (Decidable (_ < _))

/-- What is saved when a facility closes and its clients that would not go over by themselves go
over too. -/
def saving (facility : ι) : R :=
  fixed + ∑ client ∈ plan.clients with plan.assign client = facility ∧ ¬plan.Switches price client,
    (plan.cost client - price client)

/-- The facility closes in the move. -/
def Closes (facility : ι) : Prop := 0 < plan.saving fixed price facility

instance (facility : ι) : Decidable (plan.Closes fixed price facility) :=
  inferInstanceAs (Decidable (_ < _))

/-- The client goes over in the move. -/
def Moves (client : ι) : Prop :=
  plan.Switches price client ∨ plan.Closes fixed price (plan.assign client)

instance (client : ι) : Decidable (plan.Moves fixed price client) :=
  inferInstanceAs (Decidable (_ ∨ _))

/-- The facilities that close in the move. -/
def closing : Finset ι := plan.opened.filter fun facility => plan.Closes fixed price facility

/-- The plan after the move. -/
def after : Plan ι R where
  clients := plan.clients
  opened := insert location (plan.opened \ plan.closing fixed price)
  assign client := if plan.Moves fixed price client then location else plan.assign client
  cost client := if plan.Moves fixed price client then price client else plan.cost client

/-- The price of the new facility and of the clients that go over by themselves, less the savings
of the facilities that close. -/
def gain : R :=
  fixed + (∑ client ∈ plan.clients with plan.Switches price client,
    (price client - plan.cost client)) -
    ∑ facility ∈ plan.closing fixed price, plan.saving fixed price facility

variable {plan fixed price location}

/-- The clients that go over only because their facility closes, counted facility by facility. -/
theorem sum_closed (assigned : ∀ client ∈ plan.clients, plan.assign client ∈ plan.opened) :
    ∑ client ∈ plan.clients with
        ¬plan.Switches price client ∧ plan.Closes fixed price (plan.assign client),
      (price client - plan.cost client) =
    ∑ facility ∈ plan.closing fixed price, (fixed - plan.saving fixed price facility) := by
  have inside : ∀ client ∈ plan.clients.filter fun client =>
      ¬plan.Switches price client ∧ plan.Closes fixed price (plan.assign client),
      plan.assign client ∈ plan.closing fixed price := by
    intro client member
    obtain ⟨known, -, closes⟩ := Finset.mem_filter.mp member
    exact Finset.mem_filter.mpr ⟨assigned client known, closes⟩
  rw [← Finset.sum_fiberwise_of_maps_to inside]
  apply Finset.sum_congr rfl
  intro facility member
  have closes := (Finset.mem_filter.mp member).2
  have fibre : (plan.clients.filter fun client =>
        ¬plan.Switches price client ∧ plan.Closes fixed price (plan.assign client)).filter
        (fun client => plan.assign client = facility) =
      plan.clients.filter fun client =>
        plan.assign client = facility ∧ ¬plan.Switches price client := by
    ext client
    simp only [Finset.mem_filter]
    constructor
    · rintro ⟨⟨known, stays, -⟩, same⟩
      exact ⟨known, same, stays⟩
    · rintro ⟨known, same, stays⟩
      exact ⟨⟨known, stays, same ▸ closes⟩, same⟩
  rw [fibre, saving, sub_add_cancel_left, ← Finset.sum_neg_distrib]
  apply Finset.sum_congr rfl
  intro client _
  exact (neg_sub _ _).symm

/-- What the move changes in the costs of the clients. -/
theorem sum_cost_after (fixed : R) (price : ι → R) (location : ι)
    (assigned : ∀ client ∈ plan.clients, plan.assign client ∈ plan.opened) :
    ∑ client ∈ plan.clients, (plan.after fixed price location).cost client =
      ∑ client ∈ plan.clients, plan.cost client +
        (∑ client ∈ plan.clients with plan.Switches price client,
          (price client - plan.cost client)) +
        ∑ facility ∈ plan.closing fixed price, (fixed - plan.saving fixed price facility) := by
  rw [← sum_closed assigned, Finset.sum_filter, Finset.sum_filter, ← Finset.sum_add_distrib,
    ← Finset.sum_add_distrib]
  apply Finset.sum_congr rfl
  intro client _
  by_cases switches : plan.Switches price client
  · simp [after, Moves, switches]
  · by_cases closes : plan.Closes fixed price (plan.assign client)
    · simp [after, Moves, switches, closes]
    · simp [after, Moves, switches, closes]

/-- The move opens one facility; one that is open already closes first. -/
theorem card_after (plan : Plan ι R) (fixed : R) (price : ι → R)
    (reopens : location ∈ plan.opened → plan.Closes fixed price location) :
    (plan.after fixed price location).opened.card + (plan.closing fixed price).card =
      plan.opened.card + 1 := by
  have closed : plan.closing fixed price ⊆ plan.opened := Finset.filter_subset _ _
  have fresh : location ∉ plan.opened \ plan.closing fixed price := by
    intro member
    obtain ⟨isOpen, stays⟩ := Finset.mem_sdiff.mp member
    exact stays (Finset.mem_filter.mpr ⟨isOpen, reopens isOpen⟩)
  have some := Finset.card_le_card closed
  unfold after
  rw [Finset.card_insert_of_notMem fresh, Finset.card_sdiff_of_subset closed]
  omega

/-- The computed gain is the change of the total cost. -/
theorem total_after (assigned : ∀ client ∈ plan.clients, plan.assign client ∈ plan.opened)
    (reopens : location ∈ plan.opened → plan.Closes fixed price location) :
    (plan.after fixed price location).total fixed - plan.total fixed =
      plan.gain fixed price := by
  have count := congrArg (Nat.cast : Nat → R) (card_after plan fixed price reopens)
  push_cast at count
  have costs := sum_cost_after fixed price location assigned
  have closed : ∑ facility ∈ plan.closing fixed price,
      (fixed - plan.saving fixed price facility) =
      (plan.closing fixed price).card * fixed -
        ∑ facility ∈ plan.closing fixed price, plan.saving fixed price facility := by
    rw [Finset.sum_sub_distrib, Finset.sum_const, nsmul_eq_mul]
  unfold total gain
  show _ + ∑ client ∈ plan.clients, (plan.after fixed price location).cost client - _ = _
  rw [costs, closed]
  linear_combination fixed * count

variable (plan) in
/-- The clients are served by open facilities at their prices, and each open facility serves
itself for nothing. -/
structure WellFormed (prices : ι → ι → R) : Prop where
  /-- A facility is open at a client. -/
  opened : plan.opened ⊆ plan.clients
  /-- Each client is served by an open facility. -/
  assign : ∀ client ∈ plan.clients, plan.assign client ∈ plan.opened
  /-- Each client pays the price of its facility. -/
  cost : ∀ client ∈ plan.clients, plan.cost client = prices (plan.assign client) client
  /-- An open facility serves itself. -/
  own : ∀ facility ∈ plan.opened, plan.assign facility = facility
  /-- An open facility pays nothing for itself. -/
  free : ∀ facility ∈ plan.opened, plan.cost facility = 0

/-- Prices that are never negative, where a client that pays nothing is at its facility. -/
structure Prices (clients : Finset ι) (prices : ι → ι → R) : Prop where
  /-- No price is negative. -/
  nonneg : ∀ facility ∈ clients, ∀ client ∈ clients, 0 ≤ prices facility client
  /-- A facility serves itself for nothing. -/
  self : ∀ facility ∈ clients, prices facility facility = 0
  /-- A client that pays nothing is at the place of its facility. -/
  together : ∀ facility ∈ clients, ∀ client ∈ clients, prices facility client = 0 →
    ∀ other ∈ clients, prices client other = prices facility other

variable {prices : ι → ι → R}

/-- When the new location pays nothing now, its facility closes. -/
theorem WellFormed.closes_of_free (formed : plan.WellFormed prices)
    (laws : Prices plan.clients prices)
    (positive : 0 < fixed) (member : location ∈ plan.clients) (free : plan.cost location = 0) :
    plan.Closes fixed (prices location) (plan.assign location) := by
  have zero : prices (plan.assign location) location = 0 := by
    rw [← formed.cost location member, free]
  have facility := formed.opened (formed.assign location member)
  have same := laws.together _ facility _ member zero
  unfold Closes saving
  rw [Finset.sum_eq_zero, add_zero]
  · exact positive
  · intro client inside
    obtain ⟨known, assigned, -⟩ := Finset.mem_filter.mp inside
    rw [formed.cost client known, assigned, same client known, sub_self]

/-- The new location always goes over to itself. -/
theorem WellFormed.moves_location (formed : plan.WellFormed prices)
    (laws : Prices plan.clients prices)
    (positive : 0 < fixed) (member : location ∈ plan.clients) :
    plan.Moves fixed (prices location) location := by
  have pays : 0 ≤ plan.cost location := by
    rw [formed.cost location member]
    exact laws.nonneg _ (formed.opened (formed.assign location member)) _ member
  rcases pays.lt_or_eq with pays | free
  · left
    unfold Switches
    rw [laws.self location member]
    exact pays
  · exact .inr (formed.closes_of_free laws positive member free.symm)

/-- A facility at the new location closes before it is opened again. -/
theorem WellFormed.reopens (formed : plan.WellFormed prices) (laws : Prices plan.clients prices)
    (positive : 0 < fixed) (isOpen : location ∈ plan.opened) :
    plan.Closes fixed (prices location) location := by
  have closes := formed.closes_of_free laws positive (formed.opened isOpen)
    (formed.free location isOpen)
  rwa [formed.own location isOpen] at closes

/-- The move keeps a plan well formed. -/
theorem WellFormed.after (formed : plan.WellFormed prices) (laws : Prices plan.clients prices)
    (positive : 0 < fixed) (member : location ∈ plan.clients) :
    (plan.after fixed (prices location) location).WellFormed prices := by
  have goes := formed.moves_location laws positive member
  have stays : ∀ facility ∈ plan.opened, facility ∉ plan.closing fixed (prices location) →
      ¬plan.Moves fixed (prices location) facility := by
    intro facility isOpen kept moves
    rcases moves with switches | closes
    · have cheaper : prices location facility < plan.cost facility := switches
      rw [formed.free facility isOpen] at cheaper
      exact absurd (laws.nonneg location member facility (formed.opened isOpen))
        (not_le.mpr cheaper)
    · rw [formed.own facility isOpen] at closes
      exact kept (Finset.mem_filter.mpr ⟨isOpen, closes⟩)
  constructor
  · intro facility inside
    rcases Finset.mem_insert.mp inside with rfl | rest
    · exact member
    · exact formed.opened (Finset.mem_sdiff.mp rest).1
  · intro client known
    show (if _ then _ else _) ∈ insert location _
    split
    · exact Finset.mem_insert_self _ _
    · rename_i settled
      have isOpen := formed.assign client known
      refine Finset.mem_insert_of_mem (Finset.mem_sdiff.mpr ⟨isOpen, ?_⟩)
      intro closes
      exact settled (.inr (Finset.mem_filter.mp closes).2)
  · intro client known
    show (if _ then _ else _) = prices (if _ then _ else _) client
    split
    · rfl
    · exact formed.cost client known
  · intro facility inside
    show (if _ then _ else _) = _
    rcases Finset.mem_insert.mp inside with rfl | rest
    · rw [if_pos goes]
    · obtain ⟨isOpen, kept⟩ := Finset.mem_sdiff.mp rest
      rw [if_neg (stays facility isOpen kept)]
      exact formed.own facility isOpen
  · intro facility inside
    show (if _ then _ else _) = _
    rcases Finset.mem_insert.mp inside with rfl | rest
    · rw [if_pos goes]
      exact laws.self _ member
    · obtain ⟨isOpen, kept⟩ := Finset.mem_sdiff.mp rest
      rw [if_neg (stays facility isOpen kept)]
      exact formed.free facility isOpen

/-- Two plans that agree on the clients. -/
structure Agrees (plan other : Plan ι R) : Prop where
  /-- The clients. -/
  clients : other.clients = plan.clients
  /-- The open facilities. -/
  opened : other.opened = plan.opened
  /-- The facilities of the clients. -/
  assign : ∀ client ∈ plan.clients, other.assign client = plan.assign client
  /-- The costs of the clients. -/
  cost : ∀ client ∈ plan.clients, other.cost client = plan.cost client

variable {other : Plan ι R}

omit [DecidableEq ι] [LinearOrder R] in
/-- Plans that agree have one cost. -/
theorem Agrees.total (agrees : Agrees plan other) (fixed : R) :
    other.total fixed = plan.total fixed := by
  unfold Plan.total
  rw [agrees.clients, agrees.opened, Finset.sum_congr rfl agrees.cost]

omit [DecidableEq ι] [LinearOrder R] in
/-- Plans that agree are well formed together. -/
theorem Agrees.wellFormed (agrees : Agrees plan other) (formed : plan.WellFormed prices) :
    other.WellFormed prices := by
  constructor
  · rw [agrees.clients, agrees.opened]
    exact formed.opened
  · intro client known
    rw [agrees.clients] at known
    rw [agrees.opened, agrees.assign client known]
    exact formed.assign client known
  · intro client known
    rw [agrees.clients] at known
    rw [agrees.assign client known, agrees.cost client known]
    exact formed.cost client known
  · intro facility isOpen
    rw [agrees.opened] at isOpen
    rw [agrees.assign facility (formed.opened isOpen)]
    exact formed.own facility isOpen
  · intro facility isOpen
    rw [agrees.opened] at isOpen
    rw [agrees.cost facility (formed.opened isOpen)]
    exact formed.free facility isOpen

end Plan

end P3arsec.Lib
