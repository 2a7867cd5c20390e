import Mathlib

/-!
# Tickets for those who wait

A desk issues tickets to those who wait. Nobody's name is on a ticket, so that someone who came
after a ticket was issued may be served in the place of one who waited then. The desk is fair when
each ticket can be given a taker of its own who waited when it was issued, so that only takers are
served. That is so in a run in which whoever is served came before some pending ticket was issued
(`Assigned.serve`). When everybody has a ticket, or when at most one newcomer gets a chance with
each new ticket, this is guaranteed (`Covered`).
-/

namespace P3arsec.Lib

/-- A desk. -/
structure Desk (ω : Type*) where
  /-- Those who wait. -/
  waiting : Finset ω
  /-- The number of tickets that were issued before someone came. -/
  since : ω → Nat
  /-- The number of tickets. -/
  issued : Nat
  /-- Those who waited when a ticket was issued. -/
  candidates : Nat → Finset ω
  /-- Those who were served. -/
  served : Finset ω

namespace Desk

variable {ω : Type*}

/-- A desk to which nobody has come. -/
def empty : Desk ω where
  waiting := ∅
  since _ := 0
  issued := 0
  candidates _ := ∅
  served := ∅

section Operations

variable [DecidableEq ω]

/-- Someone comes. -/
def arrive (who : ω) (desk : Desk ω) : Desk ω :=
  { desk with
    waiting := insert who desk.waiting
    since := Function.update desk.since who desk.issued }

/-- A ticket is issued. -/
def issue (desk : Desk ω) : Desk ω :=
  { desk with
    issued := desk.issued + 1
    candidates := Function.update desk.candidates desk.issued desk.waiting }

/-- Someone is served. -/
def serve (who : ω) (desk : Desk ω) : Desk ω :=
  { desk with waiting := desk.waiting.erase who, served := insert who desk.served }

end Operations

/-- Each ticket has a taker of its own who waited when it was issued, and only takers are served. -/
def Fair (desk : Desk ω) : Prop :=
  ∃ taker : Nat → ω, (∀ ticket < desk.issued, taker ticket ∈ desk.candidates ticket) ∧
    (∀ ticket < desk.issued, ∀ other < desk.issued, taker ticket = taker other → ticket = other) ∧
    ∀ who ∈ desk.served, ∃ ticket < desk.issued, taker ticket = who

/-- The tickets have takers; those of the pending tickets wait. -/
structure Assigned (desk : Desk ω) (pending : Finset Nat) (taker : Nat → ω) : Prop where
  inside : ∀ ticket ∈ pending, ticket < desk.issued
  waits : ∀ ticket ∈ pending, taker ticket ∈ desk.waiting
  gone : ∀ ticket < desk.issued, ticket ∉ pending → taker ticket ∈ desk.served
  candidate : ∀ ticket < desk.issued, taker ticket ∈ desk.candidates ticket
  distinct : ∀ ticket < desk.issued, ∀ other < desk.issued,
    taker ticket = taker other → ticket = other
  served : ∀ who ∈ desk.served, ∃ ticket < desk.issued, ticket ∉ pending ∧ taker ticket = who
  apart : ∀ who ∈ desk.waiting, who ∉ desk.served
  since_le : ∀ who ∈ desk.waiting, desk.since who ≤ desk.issued
  /-- Those who wait have waited since they came. -/
  known : ∀ who ∈ desk.waiting, ∀ ticket < desk.issued,
    who ∈ desk.candidates ticket ↔ desk.since who ≤ ticket
  /-- Nobody waited who does not wait and was not served. -/
  seen : ∀ ticket < desk.issued, ∀ who ∈ desk.candidates ticket,
    who ∈ desk.waiting ∨ who ∈ desk.served

variable {desk : Desk ω} {pending : Finset Nat} {taker : Nat → ω} {who : ω}

/-- Tickets do not change who waits and who was served. -/
theorem issue_iterate (desk : Desk ω) (k : Nat) :
    (issue^[k] desk).waiting = desk.waiting ∧ (issue^[k] desk).since = desk.since ∧
      (issue^[k] desk).issued = desk.issued + k ∧ (issue^[k] desk).served = desk.served := by
  induction k with
  | zero => exact ⟨rfl, rfl, rfl, rfl⟩
  | succ k ih =>
    rw [Function.iterate_succ_apply']
    exact ⟨ih.1, ih.2.1, congrArg (· + 1) ih.2.2.1, ih.2.2.2⟩

/-- An assigned desk is fair. -/
theorem Assigned.fair (assigned : Assigned desk pending taker) : desk.Fair := by
  refine ⟨taker, assigned.candidate, assigned.distinct, fun who served => ?_⟩
  obtain ⟨ticket, inside, -, same⟩ := assigned.served who served
  exact ⟨ticket, inside, same⟩

/-- The empty desk is assigned. -/
theorem assigned_empty (taker : Nat → ω) : Assigned (empty : Desk ω) ∅ taker := by
  constructor <;> simp [empty]

/-- New tickets are pending. -/
theorem Assigned.card_issues (assigned : Assigned desk pending taker) (k : Nat) :
    (pending ∪ Finset.Ico desk.issued (desk.issued + k)).card = pending.card + k := by
  rw [Finset.card_union_of_disjoint, Nat.card_Ico, Nat.add_sub_cancel_left]
  rw [Finset.disjoint_left]
  intro ticket member
  have inside := assigned.inside ticket member
  rw [Finset.mem_Ico]
  omega

/-- While an older ticket is pending, those who came later and for whom a ticket was issued since
are not more than the pending tickets that were issued since. -/
def Covered (desk : Desk ω) (pending : Finset Nat) : Prop :=
  ∀ start, (∃ ticket ∈ pending, ticket < start) →
    (desk.waiting.filter fun who => start ≤ desk.since who ∧ desk.since who < desk.issued).card ≤
      (pending.filter fun ticket => start ≤ ticket).card

/-- Those for whom a ticket was issued since they came find one that is still pending. -/
theorem Covered.exists_ticket (covered : desk.Covered pending) (waits : who ∈ desk.waiting)
    (chance : desk.since who < desk.issued) (some_ : pending.Nonempty) :
    ∃ ticket ∈ pending, desk.since who ≤ ticket := by
  by_contra none
  push Not at none
  obtain ⟨ticket, member⟩ := some_
  have le := covered (desk.since who) ⟨ticket, member, none ticket member⟩
  have empty : (pending.filter fun ticket => desk.since who ≤ ticket) = ∅ := by
    rw [Finset.filter_eq_empty_iff]
    intro ticket member
    exact not_le.mpr (none ticket member)
  have self : who ∈ desk.waiting.filter fun other =>
      desk.since who ≤ desk.since other ∧ desk.since other < desk.issued :=
    Finset.mem_filter.mpr ⟨waits, le_rfl, chance⟩
  rw [empty, Finset.card_empty, Nat.le_zero, Finset.card_eq_zero] at le
  rw [le] at self
  exact Finset.notMem_empty _ self

variable [DecidableEq ω]

/-- A new waiter keeps the assignment. -/
theorem Assigned.arrive (assigned : Assigned desk pending taker) (new : who ∉ desk.waiting)
    (unserved : who ∉ desk.served) : Assigned (desk.arrive who) pending taker := by
  have others : ∀ other ∈ desk.waiting,
      Function.update desk.since who desk.issued other = desk.since other := by
    intro other waits
    apply Function.update_of_ne
    rintro rfl
    exact new waits
  constructor
  · exact assigned.inside
  · intro ticket member
    exact Finset.mem_insert_of_mem (assigned.waits ticket member)
  · exact assigned.gone
  · exact assigned.candidate
  · exact assigned.distinct
  · exact assigned.served
  · intro other member
    rcases Finset.mem_insert.mp member with rfl | waits
    · exact unserved
    · exact assigned.apart other waits
  · intro other member
    simp only [Desk.arrive]
    rcases Finset.mem_insert.mp member with rfl | waits
    · rw [Function.update_self]
    · rw [others other waits]
      exact assigned.since_le other waits
  · intro other member ticket inside
    simp only [Desk.arrive] at inside ⊢
    rcases Finset.mem_insert.mp member with rfl | waits
    · rw [Function.update_self]
      refine iff_of_false (fun candidate => ?_) (by omega)
      rcases assigned.seen ticket inside other candidate with waits | served
      · exact new waits
      · exact unserved served
    · rw [others other waits]
      exact assigned.known other waits ticket inside
  · intro ticket inside other candidate
    rcases assigned.seen ticket inside other candidate with waits | served
    · exact Or.inl (Finset.mem_insert_of_mem waits)
    · exact Or.inr served

/-- While somebody waits without being a taker, a ticket can be issued. -/
theorem Assigned.issue (assigned : Assigned desk pending taker)
    (more : pending.card < desk.waiting.card) :
    ∃ taker', Assigned desk.issue (insert desk.issued pending) taker' := by
  obtain ⟨who, waits, free⟩ : ∃ who ∈ desk.waiting, who ∉ pending.image taker := by
    by_contra all
    push Not at all
    have le := Finset.card_le_card (show desk.waiting ⊆ pending.image taker from all)
    exact absurd (le.trans Finset.card_image_le) (by omega)
  have old : ∀ ticket < desk.issued,
      Function.update taker desk.issued who ticket = taker ticket :=
    fun ticket inside => Function.update_of_ne (by omega) _ _
  have same : ∀ ticket < desk.issued,
      Function.update desk.candidates desk.issued desk.waiting ticket = desk.candidates ticket :=
    fun ticket inside => Function.update_of_ne (by omega) _ _
  have fresh : ∀ ticket < desk.issued, taker ticket ≠ who := by
    rintro ticket inside rfl
    by_cases member : ticket ∈ pending
    · exact free (Finset.mem_image_of_mem taker member)
    · exact assigned.apart _ waits (assigned.gone ticket inside member)
  have last : ∀ ticket, ticket < desk.issue.issued ↔ ticket < desk.issued ∨ ticket = desk.issued :=
    fun ticket => Nat.lt_succ_iff_lt_or_eq
  refine ⟨Function.update taker desk.issued who, ?_⟩
  constructor
  · intro ticket member
    rw [last]
    rcases Finset.mem_insert.mp member with rfl | member
    · exact Or.inr rfl
    · exact Or.inl (assigned.inside ticket member)
  · intro ticket member
    rcases Finset.mem_insert.mp member with rfl | member
    · rw [Function.update_self]
      exact waits
    · rw [old ticket (assigned.inside ticket member)]
      exact assigned.waits ticket member
  · intro ticket inside missing
    rw [Finset.mem_insert, not_or] at missing
    have inside' := ((last ticket).mp inside).resolve_right missing.1
    rw [old ticket inside']
    exact assigned.gone ticket inside' missing.2
  · intro ticket inside
    simp only [Desk.issue]
    rcases (last ticket).mp inside with inside' | rfl
    · rw [old ticket inside', same ticket inside']
      exact assigned.candidate ticket inside'
    · rw [Function.update_self, Function.update_self]
      exact waits
  · intro ticket inside other inside' equal
    rcases (last ticket).mp inside with here | rfl <;>
      rcases (last other).mp inside' with there | rfl
    · rw [old ticket here, old other there] at equal
      exact assigned.distinct ticket here other there equal
    · rw [old ticket here, Function.update_self] at equal
      exact absurd equal (fresh ticket here)
    · rw [old other there, Function.update_self] at equal
      exact absurd equal.symm (fresh other there)
    · rfl
  · intro other served
    obtain ⟨ticket, inside, missing, same⟩ := assigned.served other served
    refine ⟨ticket, (last ticket).mpr (Or.inl inside), ?_, by rw [old ticket inside, same]⟩
    rw [Finset.mem_insert, not_or]
    exact ⟨by omega, missing⟩
  · exact assigned.apart
  · intro other waits
    exact (assigned.since_le other waits).trans (Nat.le_succ _)
  · intro other waits ticket inside
    simp only [Desk.issue]
    rcases (last ticket).mp inside with inside' | rfl
    · rw [same ticket inside']
      exact assigned.known other waits ticket inside'
    · rw [Function.update_self]
      exact iff_of_true waits (assigned.since_le other waits)
  · intro ticket inside other
    simp only [Desk.issue]
    rcases (last ticket).mp inside with inside' | rfl
    · rw [same ticket inside']
      exact assigned.seen ticket inside' other
    · rw [Function.update_self]
      exact Or.inl

/-- Tickets are issued one after the other, to no more than wait without being takers. -/
theorem Assigned.issues (assigned : Assigned desk pending taker) {k : Nat}
    (more : pending.card + k ≤ desk.waiting.card) :
    ∃ taker', Assigned (Desk.issue^[k] desk)
      (pending ∪ Finset.Ico desk.issued (desk.issued + k)) taker' := by
  induction k with
  | zero => exact ⟨taker, by simpa using assigned⟩
  | succ k ih =>
    obtain ⟨taker', before⟩ := ih (by omega)
    have same := issue_iterate desk k
    have few := Finset.card_union_le pending (Finset.Ico desk.issued (desk.issued + k))
    rw [Nat.card_Ico, Nat.add_sub_cancel_left] at few
    obtain ⟨taker', after⟩ := before.issue (by rw [same.1]; omega)
    have next : insert (desk.issued + k) (pending ∪ Finset.Ico desk.issued (desk.issued + k)) =
        pending ∪ Finset.Ico desk.issued (desk.issued + (k + 1)) := by
      ext ticket
      simp only [Finset.mem_insert, Finset.mem_union, Finset.mem_Ico]
      by_cases member : ticket ∈ pending
      · simp [member]
      · simp only [member, false_or]
        omega
    rw [same.2.2.1, next] at after
    exact ⟨taker', by rwa [Function.iterate_succ_apply']⟩

/-- Whoever came before some pending ticket was issued can be served: he gets the first such ticket,
and its taker gets his. -/
theorem Assigned.serve (assigned : Assigned desk pending taker) (waits : who ∈ desk.waiting)
    (some_ : ∃ ticket ∈ pending, desk.since who ≤ ticket) :
    ∃ ticket ∈ pending, ∃ taker', desk.since who ≤ ticket ∧
      (∀ other ∈ pending, desk.since who ≤ other → ticket ≤ other) ∧
      Assigned (desk.serve who) (pending.erase ticket) taker' := by
  obtain ⟨ticket, member, since, first⟩ : ∃ ticket ∈ pending, desk.since who ≤ ticket ∧
      ∀ other ∈ pending, desk.since who ≤ other → ticket ≤ other := by
    have nonempty : (pending.filter fun ticket => desk.since who ≤ ticket).Nonempty := by
      obtain ⟨ticket, member, since⟩ := some_
      exact ⟨ticket, Finset.mem_filter.mpr ⟨member, since⟩⟩
    obtain ⟨member, since⟩ := Finset.mem_filter.mp (Finset.min'_mem _ nonempty)
    refine ⟨_, member, since, fun other member since => ?_⟩
    exact Finset.min'_le _ _ (Finset.mem_filter.mpr ⟨member, since⟩)
  have inside := assigned.inside ticket member
  have unserved := assigned.apart who waits
  let taker' : Nat → ω := fun other =>
    if other = ticket then who else if taker other = who then taker ticket else taker other
  have own : taker' ticket = who := if_pos rfl
  have moved : ∀ other, other ≠ ticket → taker other = who → taker' other = taker ticket := by
    intro other apart same
    simp only [taker', if_neg apart, if_pos same]
  have kept : ∀ other, other ≠ ticket → taker other ≠ who → taker' other = taker other := by
    intro other apart different
    simp only [taker', if_neg apart, if_neg different]
  have holds : ∀ other < desk.issued, taker other = who → other ∈ pending := by
    rintro other inside' rfl
    by_contra missing
    exact unserved (assigned.gone other inside' missing)
  have swapped : ∀ other < desk.issued, other ≠ ticket → taker other = who →
      taker ticket ≠ who := by
    intro other inside' apart same same'
    exact apart (assigned.distinct other inside' ticket inside (same.trans same'.symm))
  refine ⟨ticket, member, taker', since, first, ?_⟩
  constructor
  · intro other member'
    exact assigned.inside other (Finset.mem_of_mem_erase member')
  · intro other member'
    obtain ⟨apart, member'⟩ := Finset.mem_erase.mp member'
    by_cases same : taker other = who
    · rw [moved other apart same]
      exact Finset.mem_erase.mpr ⟨swapped other (assigned.inside other member') apart same,
        assigned.waits ticket member⟩
    · rw [kept other apart same]
      exact Finset.mem_erase.mpr ⟨same, assigned.waits other member'⟩
  · intro other inside' missing
    by_cases here : other = ticket
    · rw [here, own]
      exact Finset.mem_insert_self _ _
    · have missing' : other ∉ pending := fun member' =>
        missing (Finset.mem_erase.mpr ⟨here, member'⟩)
      rw [kept other here fun same => missing' (holds other inside' same)]
      exact Finset.mem_insert_of_mem (assigned.gone other inside' missing')
  · intro other inside'
    by_cases here : other = ticket
    · rw [here, own]
      exact (assigned.known who waits ticket inside).mpr since
    · by_cases same : taker other = who
      · rw [moved other here same]
        have came := (assigned.known who waits other inside').mp
          (same ▸ assigned.candidate other inside')
        have before := (assigned.known _ (assigned.waits ticket member) ticket inside).mp
          (assigned.candidate ticket inside)
        exact (assigned.known _ (assigned.waits ticket member) other inside').mpr
          (before.trans (first other (holds other inside' same) came))
      · rw [kept other here same]
        exact assigned.candidate other inside'
  · have apart : ∀ other < desk.issued, other ≠ ticket → taker' other ≠ who := by
      intro other inside' here
      by_cases same : taker other = who
      · rw [moved other here same]
        exact swapped other inside' here same
      · rwa [kept other here same]
    intro left inside' right inside'' equal
    by_cases here : left = ticket
    · by_contra different
      rw [here, own] at equal
      exact apart right inside'' (fun there => different (here.trans there.symm)) equal.symm
    · by_cases there : right = ticket
      · rw [there, own] at equal
        exact absurd equal (apart left inside' here)
      · by_cases same : taker left = who <;> by_cases same' : taker right = who
        · exact assigned.distinct left inside' right inside'' (same.trans same'.symm)
        · rw [moved left here same, kept right there same'] at equal
          exact absurd (assigned.distinct ticket inside right inside'' equal).symm there
        · rw [kept left here same, moved right there same'] at equal
          exact absurd (assigned.distinct left inside' ticket inside equal) here
        · rw [kept left here same, kept right there same'] at equal
          exact assigned.distinct left inside' right inside'' equal
  · intro other served
    rcases Finset.mem_insert.mp served with rfl | served
    · exact ⟨ticket, inside, Finset.notMem_erase _ _, own⟩
    · obtain ⟨old, inside', missing, same⟩ := assigned.served other served
      refine ⟨old, inside', fun erased => missing (Finset.mem_of_mem_erase erased), ?_⟩
      rw [kept old (fun here => missing (here ▸ member))
        fun same' => missing (holds old inside' same'), same]
  · intro other member' served
    obtain ⟨different, waits'⟩ := Finset.mem_erase.mp member'
    rcases Finset.mem_insert.mp served with same | served
    · exact different same
    · exact assigned.apart other waits' served
  · intro other member'
    exact assigned.since_le other (Finset.mem_of_mem_erase member')
  · intro other member'
    exact assigned.known other (Finset.mem_of_mem_erase member')
  · intro old inside' other candidate
    by_cases same : other = who
    · exact Or.inr (Finset.mem_insert.mpr (Or.inl same))
    · rcases assigned.seen old inside' other candidate with waits' | served
      · exact Or.inl (Finset.mem_erase.mpr ⟨same, waits'⟩)
      · exact Or.inr (Finset.mem_insert_of_mem served)

/-- A newcomer has no chance yet. -/
theorem Covered.arrive (covered : desk.Covered pending) (new : who ∉ desk.waiting) :
    (desk.arrive who).Covered pending := by
  intro start older
  refine (Finset.card_le_card ?_).trans (covered start older)
  intro other known
  obtain ⟨member, chance⟩ := Finset.mem_filter.mp known
  simp only [Desk.arrive] at member chance
  rcases Finset.mem_insert.mp member with rfl | waits
  · rw [Function.update_self] at chance
    omega
  · rw [Function.update_of_ne (by rintro rfl; exact new waits)] at chance
    exact Finset.mem_filter.mpr ⟨waits, chance⟩

/-- A ticket gives a chance to those who have come since the last one was issued. -/
theorem Covered.issue (covered : desk.Covered pending)
    (inside : ∀ ticket ∈ pending, ticket < desk.issued)
    (few : pending = ∅ ∨ (desk.waiting.filter fun who => desk.since who = desk.issued).card ≤ 1) :
    desk.issue.Covered (insert desk.issued pending) := by
  intro start older
  change (desk.waiting.filter fun who =>
    start ≤ desk.since who ∧ desk.since who < desk.issued + 1).card ≤ _
  rcases Nat.lt_or_ge desk.issued start with late | early
  · have none : (desk.waiting.filter fun who =>
        start ≤ desk.since who ∧ desk.since who < desk.issued + 1) = ∅ := by
      rw [Finset.filter_eq_empty_iff]
      intro who _
      omega
    rw [none, Finset.card_empty]
    exact Nat.zero_le _
  · obtain ⟨ticket, member, before⟩ := older
    have old : ticket ∈ pending := (Finset.mem_insert.mp member).resolve_left (by omega)
    have one := few.resolve_left (Finset.ne_empty_of_mem old)
    have bound := covered start ⟨ticket, old, before⟩
    have split : (desk.waiting.filter fun who =>
        start ≤ desk.since who ∧ desk.since who < desk.issued + 1) ⊆
        (desk.waiting.filter fun who => start ≤ desk.since who ∧ desk.since who < desk.issued) ∪
          desk.waiting.filter fun who => desk.since who = desk.issued := by
      intro who known
      obtain ⟨waits, chance⟩ := Finset.mem_filter.mp known
      rw [Finset.mem_union, Finset.mem_filter, Finset.mem_filter]
      rcases Nat.lt_or_ge (desk.since who) desk.issued with less | last
      · exact Or.inl ⟨waits, chance.1, less⟩
      · exact Or.inr ⟨waits, by omega⟩
    have more : ((insert desk.issued pending).filter fun ticket => start ≤ ticket).card =
        (pending.filter fun ticket => start ≤ ticket).card + 1 := by
      rw [Finset.filter_insert, if_pos early, Finset.card_insert_of_notMem]
      intro known
      exact absurd (inside _ (Finset.mem_filter.mp known).1) (lt_irrefl _)
    rw [more]
    have union := (Finset.card_le_card split).trans (Finset.card_union_le _ _)
    omega

/-- When everybody has a ticket nobody lacks a chance. -/
theorem Assigned.covered (assigned : Assigned desk pending taker)
    (all : pending.card = desk.waiting.card) : desk.Covered pending := by
  have injective : Set.InjOn taker pending := fun ticket member other member' same =>
    assigned.distinct ticket (assigned.inside ticket member) other (assigned.inside other member')
      same
  have image : pending.image taker = desk.waiting := by
    apply Finset.eq_of_subset_of_card_le
    · intro who known
      obtain ⟨ticket, member, rfl⟩ := Finset.mem_image.mp known
      exact assigned.waits ticket member
    · rw [Finset.card_image_of_injOn injective, all]
  intro start _
  have sub :
      (desk.waiting.filter fun who => start ≤ desk.since who ∧ desk.since who < desk.issued) ⊆
        (pending.filter fun ticket => start ≤ ticket).image taker := by
    intro who known
    obtain ⟨waits, since, -⟩ := Finset.mem_filter.mp known
    rw [← image] at waits
    obtain ⟨ticket, member, rfl⟩ := Finset.mem_image.mp waits
    have inside := assigned.inside ticket member
    have came := (assigned.known _ (assigned.waits ticket member) ticket inside).mp
      (assigned.candidate ticket inside)
    exact Finset.mem_image_of_mem taker (Finset.mem_filter.mpr ⟨member, since.trans came⟩)
  exact (Finset.card_le_card sub).trans Finset.card_image_le

/-- Whoever is served takes the first ticket that was issued after he came. -/
theorem Covered.serve (covered : desk.Covered pending) (waits : who ∈ desk.waiting) {ticket : Nat}
    (member : ticket ∈ pending) (inside : ticket < desk.issued) (since : desk.since who ≤ ticket)
    (first : ∀ other ∈ pending, desk.since who ≤ other → ticket ≤ other) :
    (desk.serve who).Covered (pending.erase ticket) := by
  intro start older
  obtain ⟨old, member', before⟩ := older
  obtain ⟨apart, member'⟩ := Finset.mem_erase.mp member'
  have bound := covered start ⟨old, member', before⟩
  have rest : ((desk.waiting.erase who).filter fun other =>
      start ≤ desk.since other ∧ desk.since other < desk.issued) =
      (desk.waiting.filter fun other =>
        start ≤ desk.since other ∧ desk.since other < desk.issued).erase who :=
    Finset.filter_erase _ _ _
  have left : (pending.erase ticket).filter (fun other => start ≤ other) =
      (pending.filter fun other => start ≤ other).erase ticket := Finset.filter_erase _ _ _
  change ((desk.waiting.erase who).filter fun other =>
    start ≤ desk.since other ∧ desk.since other < desk.issued).card ≤ _
  rw [rest, left]
  rcases Nat.lt_or_ge ticket start with below | above
  · have missing : ticket ∉ pending.filter fun other => start ≤ other := by
      rw [Finset.mem_filter]
      omega
    rw [Finset.erase_eq_of_notMem missing]
    exact (Finset.card_le_card (Finset.erase_subset _ _)).trans bound
  · have taken : ticket ∈ pending.filter fun other => start ≤ other :=
      Finset.mem_filter.mpr ⟨member, above⟩
    rw [Finset.card_erase_of_mem taken]
    rcases Nat.lt_or_ge (desk.since who) start with earlier | later
    · -- No ticket is pending between, so that he counts among those who came since he did.
      have none : ∀ other ∈ pending, desk.since who ≤ other → start ≤ other :=
        fun other member since => above.trans (first other member since)
      have before' : old < desk.since who := by
        by_contra late
        exact absurd (none old member' (not_lt.mp late)) (by omega)
      have bound' := covered (desk.since who) ⟨old, member', before'⟩
      have same : (pending.filter fun other => desk.since who ≤ other) =
          pending.filter fun other => start ≤ other := by
        apply Finset.filter_congr
        intro other known
        exact ⟨none other known, fun le => earlier.le.trans le⟩
      have fewer : ((desk.waiting.filter fun other =>
          start ≤ desk.since other ∧ desk.since other < desk.issued).erase who).card + 1 ≤
          (desk.waiting.filter fun other =>
            desk.since who ≤ desk.since other ∧ desk.since other < desk.issued).card := by
        rw [← Finset.card_insert_of_notMem (Finset.notMem_erase who _)]
        apply Finset.card_le_card
        intro other known
        rcases Finset.mem_insert.mp known with rfl | known
        · exact Finset.mem_filter.mpr ⟨waits, le_rfl, by omega⟩
        · obtain ⟨waits', start_le, chance⟩ := Finset.mem_filter.mp (Finset.mem_of_mem_erase known)
          exact Finset.mem_filter.mpr ⟨waits', by omega, chance⟩
      rw [same] at bound'
      omega
    · have counts : who ∈ desk.waiting.filter fun other =>
          start ≤ desk.since other ∧ desk.since other < desk.issued :=
        Finset.mem_filter.mpr ⟨waits, later, by omega⟩
      rw [Finset.card_erase_of_mem counts]
      omega

end Desk

end P3arsec.Lib
