import P3arsec.Raytrace.OnDemandInvariant

/-!
# The parallel loop on demand serves its requests

Every step on the requests that the parties have keeps the invariant and lowers a measure. While a
request is not answered there is such a step, so it is answered, and the invariant says that then
all calls have been made and no reply is left.
-/

namespace P3arsec.Raytrace.OnDemand

open P3arsec.Lib

variable {nw : Nat} {s s' : State}

/-- The indices that the counter still has for the workers. -/
def Atomic.indices (nw : Nat) (s : State) (a : Atomic) : Nat :=
  if a.received + total Lane.wends nw s.lanes = nw then 0 else a.size - s.atomicI.getD 0

/-- A bound on the steps that the parties can take for the requests that they have. -/
def State.measure (nw : Nat) (s : State) : Nat :=
  total Lane.work nw s.lanes + match s.master with
    | .idle => 0
    | .generic g => 6 * (g.stop - g.pStart)
    | .atomic a => 5 * (nw - a.next) + 2 * a.indices nw s

/-- A lane with messages is not new. -/
theorem ne_new_of_busy {lane : Lane} (busy : 0 < lane.busy) : lane ≠ {} := by
  rintro rfl
  exact absurd busy (lt_irrefl _)

/-- A worker takes a message. -/
theorem begin_inv {w : Nat} (inv : Inv nw s) (acts : act nw (.begin w) s = some s') :
    Inv nw s' ∧ s'.measure nw < s.measure nw := by
  obtain ⟨lane, begins, rfl⟩ := Option.map_eq_some_iff.mp acts
  obtain ⟨message, queue, queued, free, queued', hand, current, -, -, mail⟩ :=
    Lane.begin_cases begins
  obtain ⟨some, busy, wends, work, left⟩ := Lane.begin_accounts begins
  have used := ne_new_of_busy some
  have member : message ∈ (s.lanes w).queue := by simp [queued]
  cases inv with
  | idle waits answered called ordered lanes => exact absurd (lanes w) used
  | generic g r old plus count sent serves ordered inv =>
    have inside := inv.lt_next used
    obtain ⟨start, stop, same⟩ := (inv.chunks w).queue message member
    rcases mail with ⟨_, _, _, same', isHand, mail⟩ | ⟨_, _, same', -⟩
    case inr => cases same.symm.trans same'
    cases same.symm.trans same'
    refine ⟨.generic g r old plus count sent serves ordered
      (inv.worker inside ⟨?_, ?_, ?_⟩ ?_ (by omega) (by rw [left])), ?_⟩
    · intro other found
      exact (inv.chunks w).queue other
        (by rw [queued, ← queued']; exact List.mem_cons_of_mem _ found)
    · intro other found
      rw [current, Option.mem_some_iff] at found
      exact ⟨start, stop, found.symm.trans isHand⟩
    · rw [current]
      simp
    · exact fun _ => .inr (by simp [mail])
    · have sum := total_update Lane.work s.lanes lane (inside.trans_le inv.next_le)
      simp only [State.measure, serves]
      omega
  | atomic a r old fetched serves ordered inv =>
    have inside := inv.lt_next used
    have same := (inv.counts w).queue message member
    rcases mail with ⟨_, _, _, same', -⟩ | ⟨_, _, same', isHand, mail⟩
    case inl => cases same.symm.trans same'
    cases same.symm.trans same'
    refine ⟨.atomic a r old fetched serves ordered
      (inv.worker 0 inside ⟨?_, ?_, ?_⟩ (by omega) inv.atomicI_eq ?_ (.inr ⟨wends, le_rfl⟩)
        (add_zero _).symm (by rw [left, add_zero])), ?_⟩
    · intro other found
      exact (inv.counts w).queue other
        (by rw [queued, ← queued']; exact List.mem_cons_of_mem _ found)
    · intro other found
      rw [current, Option.mem_some_iff] at found
      exact ⟨none, found.symm.trans isHand⟩
    · rw [mail]
      exact (inv.counts w).mail
    · have bound := inv.fetched_le
      omega
    · have sum := total_update Lane.work s.lanes lane (inside.trans_le inv.next_le)
      have sum' := total_update Lane.wends s.lanes lane (inside.trans_le inv.next_le)
      have still : total Lane.wends nw (Function.update s.lanes w lane) =
          total Lane.wends nw s.lanes := by omega
      simp only [State.measure, serves, Atomic.indices, still]
      omega

/-- What going on does. -/
theorem next_cases {w : Nat} (goes : s.next w = some s') :
    (∃ i stop fn, (s.lanes w).current = some (.chunk i stop fn) ∧
      (i < stop ∧ s' =
          { s with
            lanes := Function.update s.lanes w ((s.lanes w).hold (.chunk (i + 1) stop fn))
            called := s.called ++ [(fn, i)] } ∨
        stop ≤ i ∧ s' = { s with lanes := Function.update s.lanes w (s.lanes w).finish })) ∨
    (∃ size fn i, (s.lanes w).current = some (.atomic size fn none) ∧ s.atomicI = some i ∧
      (i < size ∧ s' =
          { s with
            atomicI := some ((i + 1) % 2 ^ 64)
            lanes := Function.update s.lanes w ((s.lanes w).hold (.atomic size fn (some i))) } ∨
        size ≤ i ∧ s' =
          { s with
            atomicI := some ((i + 1) % 2 ^ 64)
            lanes := Function.update s.lanes w (s.lanes w).finish })) ∨
    ∃ size fn i, (s.lanes w).current = some (.atomic size fn (some i)) ∧ s' =
      { s with
        lanes := Function.update s.lanes w ((s.lanes w).hold (.atomic size fn none))
        called := s.called ++ [(fn, i)] } := by
  unfold State.next at goes
  dsimp only at goes
  split at goes
  · cases goes
  · rename_i i stop fn current
    refine .inl ⟨i, stop, fn, current, ?_⟩
    split at goes
    · exact .inl ⟨‹_›, (Option.some.inj goes).symm⟩
    · exact .inr ⟨not_lt.mp ‹_›, (Option.some.inj goes).symm⟩
  · rename_i size fn current
    obtain ⟨i, counter, rfl⟩ := Option.map_eq_some_iff.mp goes
    refine .inr (.inl ⟨size, fn, i, current, counter, ?_⟩)
    by_cases less : i < size
    · exact .inl ⟨less, by rw [if_pos less]⟩
    · exact .inr ⟨not_lt.mp less, by rw [if_neg less]⟩
  · rename_i size fn i current
    exact .inr (.inr ⟨size, fn, i, current, (Option.some.inj goes).symm⟩)

/-- A worker goes on with a chunk. -/
theorem next_generic {g : Generic} {r : Request} {old : List Request} {plus count sent w : Nat}
    (serves : s.master = .generic g) (ordered : ∀ r ∈ old, r.Ordered)
    (inv : GenericInv nw s g r old plus count sent) (goes : s.next w = some s') :
    Inv nw s' ∧ s'.measure nw < s.measure nw := by
  rcases next_cases goes with ⟨i, stop, fn, current, rest⟩ | ⟨_, _, _, current, -⟩ |
    ⟨_, _, _, current, -⟩
  case inr.inl | inr.inr =>
    obtain ⟨_, _, same⟩ := (inv.chunks w).current _ current
    cases same
  obtain ⟨_, _, same⟩ := (inv.chunks w).current _ current
  cases same
  have used : s.lanes w ≠ {} := by
    intro new
    rw [new] at current
    cases current
  have inside := inv.lt_next used
  have bound := inside.trans_le inv.next_le
  rcases rest with ⟨less, rfl⟩ | ⟨out, rfl⟩
  · obtain ⟨busy, wends, work, left⟩ := Lane.hand_accounts (.chunk (i + 1) stop g.fn) current
    have chunks : ((s.lanes w).hold (.chunk (i + 1) stop g.fn)).Chunks g.fn := by
      refine ⟨(inv.chunks w).queue, ?_, by simp [Lane.hold]⟩
      rintro _ ⟨⟩
      exact ⟨i + 1, stop, rfl⟩
    refine ⟨.generic g r old plus count sent serves ordered
      (inv.worker inside chunks (inv.supply · w inside) (by omega) ?_), ?_⟩
    · have one : (Hand.chunk i stop g.fn).left =
          {(g.fn, i)} + (Hand.chunk (i + 1) stop g.fn).left := by
        simp only [Hand.left]
        rw [show stop - i = stop - (i + 1) + 1 by omega, pieces_succ]
      rw [one, ← add_assoc, add_left_inj] at left
      rw [← left, ← Multiset.coe_add, Multiset.coe_singleton, add_assoc,
        add_comm ({(g.fn, i)} : Multiset (Nat × Nat))]
    · have sum := total_update Lane.work s.lanes
        ((s.lanes w).hold (.chunk (i + 1) stop g.fn)) bound
      simp only [Hand.work] at work
      simp only [State.measure, serves]
      omega
  · have nothing : (Hand.chunk i stop g.fn).left = 0 := by
      rw [Hand.left, Nat.sub_eq_zero_of_le out, pieces_zero]
    obtain ⟨busy, wends, work, left⟩ := Lane.finish_accounts current nothing
      (Nat.le_add_right 2 _)
    have chunks : (s.lanes w).finish.Chunks g.fn :=
      ⟨(inv.chunks w).queue, by simp [Lane.finish], by simp [Lane.finish]⟩
    refine ⟨.generic g r old plus count sent serves ordered
      (inv.worker inside chunks ?_ (by omega) (by rw [left])), ?_⟩
    · intro more
      rcases inv.supply more w inside with queued | asked
      · exact .inl queued
      · exact .inr (List.mem_append_left _ asked)
    · have sum := total_update Lane.work s.lanes (s.lanes w).finish bound
      simp only [State.measure, serves]
      omega

/-- A worker goes on with the loop with the counter. -/
theorem next_atomic {a : Atomic} {r : Request} {old : List Request} {fetched w : Nat}
    (serves : s.master = .atomic a) (ordered : ∀ r ∈ old, r.Ordered)
    (inv : AtomicInv nw s a r old fetched) (goes : s.next w = some s') :
    Inv nw s' ∧ s'.measure nw < s.measure nw := by
  rcases next_cases goes with ⟨_, _, _, current, -⟩ | ⟨size, fn, i, current, counter, rest⟩ |
    ⟨size, fn, i, current, rfl⟩
  case inl =>
    obtain ⟨_, same⟩ := (inv.counts w).current _ current
    cases same
  all_goals
    obtain ⟨_, same⟩ := (inv.counts w).current _ current
    cases same
    have used : s.lanes w ≠ {} := by
      intro new
      rw [new] at current
      cases current
    have inside := inv.lt_next used
    have bound := inside.trans_le inv.next_le
    have fetchedLe := inv.fetched_le
    have room := inv.room
  case inr.inl =>
    have busy : 0 < (s.lanes w).busy := by simp [Lane.busy, current]
    have share := le_total Lane.busy s.lanes bound
    have received := inv.received_eq
    have reached := inv.next_le
    have small : fetched < 2 ^ 64 := by omega
    rw [inv.atomicI_eq, Nat.mod_eq_of_lt small] at counter
    obtain rfl := Option.some.inj counter
    rcases rest with ⟨less, rfl⟩ | ⟨out, rfl⟩
    · obtain ⟨busy', wends, work, left⟩ :=
        Lane.hand_accounts (.atomic a.size a.fn (some fetched)) current
      have counts : ((s.lanes w).hold (.atomic a.size a.fn (some fetched))).Counts a.size a.fn := by
        refine ⟨(inv.counts w).queue, ?_, (inv.counts w).mail⟩
        rintro _ ⟨⟩
        exact ⟨_, rfl⟩
      refine ⟨.atomic a r old (fetched + 1) serves ordered
        (inv.worker {(a.fn, fetched)} inside counts (by omega) rfl (by omega)
          (.inr ⟨wends, Nat.le_succ _⟩) ?_ ?_), ?_⟩
      · rw [min_eq_left (by omega), min_eq_left less.le, pieces_add, zero_add]
        rfl
      · simp only [Hand.left, add_zero] at left
        rw [left, add_assoc]
      · have sum := total_update Lane.work s.lanes
          ((s.lanes w).hold (.atomic a.size a.fn (some fetched))) bound
        have sum' := total_update Lane.wends s.lanes
          ((s.lanes w).hold (.atomic a.size a.fn (some fetched))) bound
        simp only [Hand.work] at work
        simp only [State.measure, serves, Atomic.indices, inv.atomicI_eq, Option.getD_some]
        rw [if_neg (by omega), if_neg (by omega), Nat.mod_eq_of_lt small,
          Nat.mod_eq_of_lt (by omega)]
        omega
    · have nothing : (Hand.atomic a.size a.fn none).left = 0 := rfl
      obtain ⟨busy', wends, work, left⟩ := Lane.finish_accounts current nothing le_rfl
      have counts : (s.lanes w).finish.Counts a.size a.fn := by
        refine ⟨(inv.counts w).queue, by simp [Lane.finish], ?_⟩
        intro reply member
        rcases List.mem_append.mp member with old | new
        · exact (inv.counts w).mail reply old
        · exact List.mem_singleton.mp new
      refine ⟨.atomic a r old (fetched + 1) serves ordered
        (inv.worker 0 inside counts (by omega) rfl (by omega)
          (.inl (by omega)) ?_ ?_), ?_⟩
      · rw [min_eq_right (by omega), min_eq_right out, add_zero]
      · rw [left, add_zero]
      · have sum := total_update Lane.work s.lanes (s.lanes w).finish bound
        have sum' := total_update Lane.wends s.lanes (s.lanes w).finish bound
        simp only [State.measure, serves, Atomic.indices, inv.atomicI_eq, Option.getD_some]
        split
        · split <;> omega
        · rw [Nat.mod_eq_of_lt (by omega)]
          split <;> omega
  case inr.inr =>
    obtain ⟨busy', wends, work, left⟩ :=
      Lane.hand_accounts (.atomic a.size a.fn none) current
    have counts : ((s.lanes w).hold (.atomic a.size a.fn none)).Counts a.size a.fn := by
      refine ⟨(inv.counts w).queue, ?_, (inv.counts w).mail⟩
      rintro _ ⟨⟩
      exact ⟨_, rfl⟩
    refine ⟨.atomic a r old fetched serves ordered
      (inv.worker 0 inside counts (by omega) inv.atomicI_eq (by omega)
        (.inr ⟨wends, le_rfl⟩) (add_zero _).symm ?_), ?_⟩
    · simp only [Hand.left, add_zero] at left
      rw [← left, ← Multiset.coe_add, Multiset.coe_singleton, add_zero, add_assoc,
        add_comm ({(a.fn, i)} : Multiset (Nat × Nat))]
    · have sum := total_update Lane.work s.lanes ((s.lanes w).hold (.atomic a.size a.fn none)) bound
      have sum' := total_update Lane.wends s.lanes
        ((s.lanes w).hold (.atomic a.size a.fn none)) bound
      have still : total Lane.wends nw
          (Function.update s.lanes w ((s.lanes w).hold (.atomic a.size a.fn none))) =
          total Lane.wends nw s.lanes := by omega
      simp only [Hand.work] at work
      simp only [State.measure, serves, Atomic.indices, still]
      omega

/-- The first loop of the master goes on. -/
theorem send_inv (inv : Inv nw s) (acts : act nw .send s = some s') :
    Inv nw s' ∧ s'.measure nw < s.measure nw := by
  cases inv with
  | idle waits =>
    simp only [act, waits] at acts
    cases acts
  | generic g r old plus count sent serves ordered inv =>
    simp only [act, serves] at acts
    split at acts
    case isFalse => cases acts
    rename_i ready
    obtain ⟨inside, more⟩ := ready
    cases acts
    have new := inv.beyond g.next le_rfl
    refine ⟨.generic { g.sent with next := g.next + 1 } r old plus count (sent + 1) rfl ordered
      (inv.send more (Nat.lt_succ_self _) (Nat.le_succ _) inside ?_ (inv.chunks _) rfl rfl rfl _),
      ?_⟩
    · intro other less
      omega
    · have sum := total_update Lane.work s.lanes
        ((s.lanes g.next).send (.chunk g.pStart g.pEnd g.fn)) inside
      have grows := inv.lt_pEnd more
      rw [Lane.work_send, Message.work] at sum
      simp only [State.measure, serves, Generic.sent]
      omega
  | atomic a r old fetched serves ordered inv =>
    simp only [act, serves] at acts
    split at acts
    case isFalse => cases acts
    rename_i inside
    cases acts
    have busy := total_update Lane.busy s.lanes ((s.lanes a.next).send (.atomic a.size a.fn)) inside
    have wends := total_update Lane.wends s.lanes ((s.lanes a.next).send (.atomic a.size a.fn))
      inside
    have work := total_update Lane.work s.lanes ((s.lanes a.next).send (.atomic a.size a.fn)) inside
    rw [Lane.busy_send] at busy
    rw [Lane.wends_send] at wends
    rw [Lane.work_send, Message.work] at work
    have received := inv.received_eq
    have bound := inv.fetched_le
    refine ⟨.atomic { a with next := a.next + 1 } r old fetched rfl ordered ?_, ?_⟩
    · exact
        { history := ⟨inv.history.requests_eq, inv.history.fn_eq, inv.history.answered_eq,
            inv.history.ordered⟩
          size_eq := inv.size_eq
          start_eq := inv.start_eq
          room := inv.room
          atomicI_eq := inv.atomicI_eq
          fetched_le := by
            dsimp only
            omega
          next_le := inside
          received_lt := inv.received_lt
          beyond := by
            intro other beyond
            dsimp only at beyond ⊢
            rw [Function.update_of_ne (by omega)]
            exact inv.beyond other (by omega)
          counts := by
            intro other
            dsimp only
            rw [Function.update_apply]
            split
            · refine ⟨?_, (inv.counts _).current, (inv.counts _).mail⟩
              intro message member
              rcases List.mem_append.mp member with old | new
              · exact (inv.counts _).queue message old
              · exact List.mem_singleton.mp new
            · exact inv.counts other
          received_eq := by
            dsimp only
            omega
          done := by
            intro some
            dsimp only at some
            exact inv.done (by omega)
          accounts_eq := by
            rw [← inv.accounts_eq, ← add_zero (s.accounts nw)]
            refine accounts_update inside ?_
            rw [Lane.left_send, Message.left, add_zero, add_zero] }
    · have still : total Lane.wends nw (Function.update s.lanes a.next
          ((s.lanes a.next).send (.atomic a.size a.fn))) = total Lane.wends nw s.lanes := by omega
      simp only [State.measure, serves, Atomic.indices, still]
      omega

/-- The request has been served. -/
theorem History.idle {s' : State} {fn : Nat} {r : Request} {old : List Request}
    (history : History s fn r old) (ordered : ∀ r ∈ old, r.Ordered) (waits : s'.master = .idle)
    (same : s'.requests = s.requests) (answered : s'.answered = s.answered ++ [fn])
    (lanes : ∀ w, s'.lanes w = {})
    (accounts : s'.accounts nw = wanted 0 old + pieces fn r.start (r.stop - r.start)) :
    Inv nw s' := by
  have requests := same.trans history.requests_eq
  refine .idle waits ?_ ?_ ?_ lanes
  · rw [answered, requests, history.answered_eq, history.fn_eq, List.length_append,
      List.length_singleton, List.range_succ]
  · rw [requests, wanted_append, zero_add, ← history.fn_eq, ← accounts, State.accounts,
      total_new Lane.left rfl lanes, add_zero]
  · intro r' member
    rw [requests] at member
    rcases List.mem_append.mp member with before | last
    · exact ordered r' before
    · rw [List.mem_singleton.mp last]
      exact history.ordered

/-- A mailbox that is kept is counted with its lane. -/
theorem Lane.keep_accounts (mail : List Reply) (lane : Lane) :
    (lane.keep mail).busy = lane.busy ∧ (lane.keep mail).wends = mail.count .wend ∧
      (lane.keep mail).work + lane.mail.length = lane.work + mail.length ∧
      (lane.keep mail).left = lane.left := by
  refine ⟨rfl, rfl, ?_, rfl⟩
  simp only [keep, work]
  omega

/-- The oldest reply of a worker has been received. -/
theorem Lane.Chunks.keep {fn : Nat} {lane : Lane} (chunks : lane.Chunks fn) {reply : Reply}
    {mail : List Reply} (first : lane.mail = reply :: mail) : (lane.keep mail).Chunks fn := by
  refine ⟨chunks.queue, chunks.current, ?_⟩
  intro free
  have last := chunks.mail free
  rw [first] at last
  cases mail with
  | nil => simp [Lane.keep]
  | cons second mail => simpa [Lane.keep, List.getLast?_cons_cons] using last

/-- When all chunks have been reported the workers have nothing. -/
theorem eq_new_of_reported {fn : Nat} {lanes : Nat → Lane} (chunks : ∀ w, (lanes w).Chunks fn)
    (beyond : ∀ w, nw ≤ w → lanes w = {})
    (reported : total Lane.busy nw lanes + total Lane.wends nw lanes = 0) (w : Nat) :
    lanes w = {} := by
  by_cases inside : w < nw
  · have busy := le_total Lane.busy lanes inside
    have wends := le_total Lane.wends lanes inside
    have free : (lanes w).busy = 0 := by omega
    refine Lane.eq_new free ?_
    have none : Reply.wend ∉ (lanes w).mail :=
      List.count_eq_zero.mp (show (lanes w).wends = 0 by omega)
    have last := (chunks w).mail (by
      unfold Lane.busy at free
      cases current : (lanes w).current with
      | none => rfl
      | some hand => simp [current] at free)
    rcases List.eq_nil_or_concat (lanes w).mail with empty | ⟨front, reply, same⟩
    · exact empty
    · rw [List.concat_eq_append] at same
      rw [same] at none last
      cases reply <;> simp at none last
  · exact beyond w (not_lt.mp inside)

/-- What the lanes come to when the master has received that a worker is done. -/
theorem keep_totals {w : Nat} {mail : List Reply} (bound : w < nw)
    (one : (s.lanes w).mail.count .wend = mail.count .wend + 1)
    (shorter : (s.lanes w).mail.length = mail.length + 1) :
    total Lane.busy nw (Function.update s.lanes w ((s.lanes w).keep mail)) =
        total Lane.busy nw s.lanes ∧
      total Lane.wends nw (Function.update s.lanes w ((s.lanes w).keep mail)) + 1 =
        total Lane.wends nw s.lanes ∧
      total Lane.work nw (Function.update s.lanes w ((s.lanes w).keep mail)) + 1 =
        total Lane.work nw s.lanes := by
  obtain ⟨busy, wends, work, -⟩ := Lane.keep_accounts mail (s.lanes w)
  have same : (s.lanes w).wends = (s.lanes w).mail.count .wend := rfl
  have busy' := total_update Lane.busy s.lanes ((s.lanes w).keep mail) bound
  have wends' := total_update Lane.wends s.lanes ((s.lanes w).keep mail) bound
  have work' := total_update Lane.work s.lanes ((s.lanes w).keep mail) bound
  omega

section Chunks

variable {g : Generic} {r : Request} {old : List Request} {plus count sent w : Nat}
  {mail : List Reply}

/-- The lanes after a reply have chunks only, and the calls are the same. -/
theorem GenericInv.keep (inv : GenericInv nw s g r old plus count sent) (inside : w < g.next)
    {reply : Reply} (first : (s.lanes w).mail = reply :: mail) :
    (∀ other, (Function.update s.lanes w ((s.lanes w).keep mail) other).Chunks g.fn) ∧
      (∀ other, g.next ≤ other →
        Function.update s.lanes w ((s.lanes w).keep mail) other = {}) ∧
      (s.called : Multiset (Nat × Nat)) +
        total Lane.left nw (Function.update s.lanes w ((s.lanes w).keep mail)) =
          wanted 0 old + pieces g.fn r.start (Chunks.offset g.chunk plus sent) := by
  obtain ⟨-, -, -, left⟩ := Lane.keep_accounts mail (s.lanes w)
  refine ⟨fun other => ?_, fun other beyond => ?_, ?_⟩
  · rw [Function.update_apply]
    split
    · exact (inv.chunks w).keep first
    · exact inv.chunks other
  · rw [Function.update_of_ne (by omega)]
    exact inv.beyond other beyond
  · have accounts : (s.called : Multiset (Nat × Nat)) +
        total Lane.left nw (Function.update s.lanes w ((s.lanes w).keep mail)) =
          s.accounts nw + 0 :=
      accounts_update (inside.trans_le inv.next_le) (by rw [left, add_zero])
    rw [accounts, add_zero, inv.accounts_eq]

/-- What the lanes come to when a chunk is done. -/
theorem GenericInv.totals (inv : GenericInv nw s g r old plus count sent) (inside : w < g.next)
    (first : (s.lanes w).mail = .wend :: mail) :
    total Lane.busy nw (Function.update s.lanes w ((s.lanes w).keep mail)) =
        total Lane.busy nw s.lanes ∧
      total Lane.wends nw (Function.update s.lanes w ((s.lanes w).keep mail)) + 1 =
        total Lane.wends nw s.lanes ∧
      total Lane.work nw (Function.update s.lanes w ((s.lanes w).keep mail)) + 1 =
        total Lane.work nw s.lanes :=
  keep_totals (inside.trans_le inv.next_le) (by rw [first, List.count_cons_self])
    (by rw [first, List.length_cons])

/-- A worker has asked for a chunk: it gets one if there is one. -/
theorem receive_wget (serves : s.master = .generic g) (ordered : ∀ r ∈ old, r.Ordered)
    (inv : GenericInv nw s g r old plus count sent) (inside : w < g.next)
    (first : (s.lanes w).mail = .wget :: mail)
    (receives : (if g.pStart < g.stop then
        some
          { s with
            master := .generic g.sent
            lanes := Function.update s.lanes w
              (((s.lanes w).keep mail).send (.chunk g.pStart g.pEnd g.fn)) }
      else
        some
          { s with
            master := .generic g
            lanes := Function.update s.lanes w ((s.lanes w).keep mail) }) = some s') :
    Inv nw s' ∧ s'.measure nw < s.measure nw := by
  have bound := inside.trans_le inv.next_le
  obtain ⟨busy, wends, work, left⟩ := Lane.keep_accounts mail (s.lanes w)
  have same : ((s.lanes w).keep mail).wends = (s.lanes w).wends := by
    rw [wends, Lane.wends, first]
    simp
  have shorter : (s.lanes w).mail.length = mail.length + 1 := by rw [first]; rfl
  split at receives
  · rename_i more
    cases receives
    refine ⟨.generic { g.sent with next := g.next } r old plus count (sent + 1) rfl ordered
      (inv.send more inside le_rfl inv.next_le (fun _ less => .inr less)
        ((inv.chunks w).keep first) busy same left _), ?_⟩
    have sum := total_update Lane.work s.lanes
      (((s.lanes w).keep mail).send (.chunk g.pStart g.pEnd g.fn)) bound
    have grows := inv.lt_pEnd more
    rw [Lane.work_send, Message.work] at sum
    simp only [State.measure, serves, Generic.sent]
    omega
  · rename_i done
    cases receives
    have kept := inv.worker inside ((inv.chunks w).keep first) (fun more => absurd more done)
      (by omega) (by rw [left])
    rw [serves] at kept
    refine ⟨.generic g r old plus count sent rfl ordered kept, ?_⟩
    have sum := total_update Lane.work s.lanes ((s.lanes w).keep mail) bound
    simp only [State.measure, serves]
    omega

/-- The last chunk is done: the request has been served. -/
theorem receive_last (serves : s.master = .generic g) (ordered : ∀ r ∈ old, r.Ordered)
    (inv : GenericInv nw s g r old plus count sent) (inside : w < g.next)
    (first : (s.lanes w).mail = .wend :: mail) (out : g.stop ≤ g.pStart) (last : g.nRes = 1) :
    Inv nw { s with
      master := .idle
      lanes := Function.update s.lanes w ((s.lanes w).keep mail)
      answered := s.answered ++ [g.fn] } ∧
    State.measure nw { s with
      master := .idle
      lanes := Function.update s.lanes w ((s.lanes w).keep mail)
      answered := s.answered ++ [g.fn] } < s.measure nw := by
  obtain ⟨busy, wends, work⟩ := inv.totals inside first
  obtain ⟨chunks, beyond, accounts⟩ := inv.keep inside first
  have nRes := inv.nRes_eq
  have many := inv.sent_le
  have reached := inv.lt_count
  have all : sent = count := by omega
  have new := eq_new_of_reported chunks
    (fun other far => beyond other (inv.next_le.trans far)) (by omega)
  refine ⟨inv.history.idle ordered rfl rfl rfl new ?_, ?_⟩
  · rw [← inv.total_eq, ← Chunks.offset_count inv.plus_le, ← all]
    exact accounts
  · simp only [State.measure, serves]
    omega

/-- A chunk is done, and there are others. -/
theorem receive_wend (serves : s.master = .generic g) (ordered : ∀ r ∈ old, r.Ordered)
    (inv : GenericInv nw s g r old plus count sent) (inside : w < g.next)
    (first : (s.lanes w).mail = .wend :: mail) (others : g.pStart < g.stop ∨ g.nRes ≠ 1)
    (counted : 0 < g.nRes) :
    Inv nw { s with
      master := .generic { g with nRes := g.nRes - 1 }
      lanes := Function.update s.lanes w ((s.lanes w).keep mail) } ∧
    State.measure nw { s with
      master := .generic { g with nRes := g.nRes - 1 }
      lanes := Function.update s.lanes w ((s.lanes w).keep mail) } < s.measure nw := by
  obtain ⟨busy, wends, work⟩ := inv.totals inside first
  obtain ⟨chunks, beyond, accounts⟩ := inv.keep inside first
  have nRes := inv.nRes_eq
  refine ⟨.generic { g with nRes := g.nRes - 1 } r old plus count sent rfl ordered ?_, ?_⟩
  · exact
      { history := ⟨inv.history.requests_eq, inv.history.fn_eq, inv.history.answered_eq,
          inv.history.ordered⟩
        stop_eq := inv.stop_eq
        total_eq := inv.total_eq
        plus_le := inv.plus_le
        count_le := inv.count_le
        sent_le := inv.sent_le
        pStart_eq := inv.pStart_eq
        plus_eq := inv.plus_eq
        nRes_le := (Nat.sub_le _ _).trans inv.nRes_le
        next_le := inv.next_le
        beyond := beyond
        chunks := chunks
        supply := by
          intro more other less
          dsimp only
          rw [Function.update_apply]
          split
          · rename_i same
            rcases inv.supply more w inside with queued | asked
            · exact .inl queued
            · rw [first, List.mem_cons] at asked
              exact .inr (asked.resolve_left (by simp))
          · exact inv.supply more other less
        nRes_eq := by
          dsimp only
          omega
        owed := by
          dsimp only
          omega
        accounts_eq := accounts }
  · simp only [State.measure, serves]
    omega

/-- The master receives a reply about chunks. -/
theorem receive_generic (serves : s.master = .generic g) (ordered : ∀ r ∈ old, r.Ordered)
    (inv : GenericInv nw s g r old plus count sent) (receives : s.receive nw w = some s') :
    Inv nw s' ∧ s'.measure nw < s.measure nw := by
  simp only [State.receive, serves] at receives
  split at receives
  case isTrue => cases receives
  have replied : ∀ {reply mail}, (s.lanes w).mail = reply :: mail → w < g.next := by
    intro reply mail first
    refine inv.lt_next fun new => ?_
    rw [new] at first
    cases first
  split at receives
  case h_1 => cases receives
  case h_2 mail first => exact receive_wget serves ordered inv (replied first) first receives
  case h_3 mail first =>
    have inside := replied first
    obtain ⟨-, wends, -⟩ := inv.totals inside first
    have nRes := inv.nRes_eq
    have few := inv.nRes_le
    have many := inv.sent_le
    have most := inv.count_le
    obtain ⟨-, fits⟩ := inv.history.ordered
    have lower : (g.nRes + (2 ^ 64 - 1)) % 2 ^ 64 = g.nRes - 1 := by omega
    rw [lower] at receives
    split at receives
    · rename_i finished
      cases receives
      exact receive_last serves ordered inv inside first finished.1 (by omega)
    · rename_i open'
      cases receives
      exact receive_wend serves ordered inv inside first (by omega) (by omega)

end Chunks

section Counter

variable {a : Atomic} {r : Request} {old : List Request} {fetched w : Nat}

/-- What is left of the mailbox of a worker that has left its loop. -/
abbrev State.rest (s : State) (w : Nat) : List Reply := (s.lanes w).mail.erase .wend

/-- The lanes after a reply have the loop with the counter only, and the calls are the same. -/
theorem AtomicInv.keep (inv : AtomicInv nw s a r old fetched) (inside : w < a.next) :
    (∀ other, (Function.update s.lanes w ((s.lanes w).keep (s.rest w)) other).Counts a.size
        a.fn) ∧
      (∀ other, a.next ≤ other →
        Function.update s.lanes w ((s.lanes w).keep (s.rest w)) other = {}) ∧
      (s.called : Multiset (Nat × Nat)) +
        total Lane.left nw (Function.update s.lanes w ((s.lanes w).keep (s.rest w))) =
          wanted 0 old + pieces a.fn 0 (min fetched a.size) := by
  obtain ⟨-, -, -, left⟩ := Lane.keep_accounts (s.rest w) (s.lanes w)
  refine ⟨fun other => ?_, fun other beyond => ?_, ?_⟩
  · rw [Function.update_apply]
    split
    · refine ⟨(inv.counts w).queue, (inv.counts w).current, fun reply found => ?_⟩
      exact (inv.counts w).mail reply (List.mem_of_mem_erase found)
    · exact inv.counts other
  · rw [Function.update_of_ne (by omega)]
    exact inv.beyond other beyond
  · have accounts : (s.called : Multiset (Nat × Nat)) +
        total Lane.left nw (Function.update s.lanes w ((s.lanes w).keep (s.rest w))) =
          s.accounts nw + 0 :=
      accounts_update (inside.trans_le inv.next_le) (by rw [left, add_zero])
    rw [accounts, add_zero, inv.accounts_eq]

/-- What the lanes come to behind such a reply. -/
theorem AtomicInv.totals (inv : AtomicInv nw s a r old fetched) (inside : w < a.next)
    (member : .wend ∈ (s.lanes w).mail) :
    total Lane.busy nw (Function.update s.lanes w ((s.lanes w).keep (s.rest w))) =
        total Lane.busy nw s.lanes ∧
      total Lane.wends nw (Function.update s.lanes w ((s.lanes w).keep (s.rest w))) + 1 =
        total Lane.wends nw s.lanes ∧
      total Lane.work nw (Function.update s.lanes w ((s.lanes w).keep (s.rest w))) + 1 =
        total Lane.work nw s.lanes := by
  refine keep_totals (inside.trans_le inv.next_le) ?_ ?_
  · have positive := List.count_pos_iff.mpr member
    rw [State.rest, List.count_erase_self]
    omega
  · have shorter := List.length_erase_of_mem member
    have long := List.length_pos_of_mem member
    rw [State.rest]
    omega

/-- The last worker has left its loop: the request has been served. -/
theorem receive_counted (serves : s.master = .atomic a) (ordered : ∀ r ∈ old, r.Ordered)
    (inv : AtomicInv nw s a r old fetched) (inside : w < a.next)
    (member : .wend ∈ (s.lanes w).mail) (all : a.received + 1 = nw) :
    Inv nw { s with
      master := .idle
      lanes := Function.update s.lanes w ((s.lanes w).keep (s.rest w))
      atomicI := none
      answered := s.answered ++ [a.fn] } ∧
    State.measure nw { s with
      master := .idle
      lanes := Function.update s.lanes w ((s.lanes w).keep (s.rest w))
      atomicI := none
      answered := s.answered ++ [a.fn] } < s.measure nw := by
  obtain ⟨busy, wends, work⟩ := inv.totals inside member
  obtain ⟨counts, beyond, accounts⟩ := inv.keep inside
  have received := inv.received_eq
  have reached := inv.next_le
  refine ⟨inv.history.idle ordered rfl rfl rfl (fun other => ?_) ?_, ?_⟩
  · by_cases known : other < nw
    · have busy := le_total Lane.busy
        (Function.update s.lanes w ((s.lanes w).keep (s.rest w))) known
      have wends := le_total Lane.wends
        (Function.update s.lanes w ((s.lanes w).keep (s.rest w))) known
      refine Lane.eq_new (Nat.eq_zero_of_le_zero (busy.trans (by omega)))
        (List.eq_nil_iff_forall_not_mem.mpr fun reply found => ?_)
      have none := List.count_eq_zero.mp (Nat.eq_zero_of_le_zero (wends.trans (by omega)))
      rw [(counts other).mail reply found] at found
      exact none found
    · exact beyond other (inv.next_le.trans (not_lt.mp known))
  · have done := inv.done (by omega)
    have whole : pieces a.fn r.start (r.stop - r.start) = pieces a.fn 0 a.size := by
      rw [inv.size_eq]
      rcases inv.start_eq with zero | empty
      · rw [zero]
      · rw [empty, Nat.sub_self, pieces_zero, pieces_zero]
    rw [whole, ← min_eq_right done]
    exact accounts
  · simp only [State.measure, serves]
    omega

/-- A worker has left its loop, and others are in theirs. -/
theorem receive_left (serves : s.master = .atomic a) (ordered : ∀ r ∈ old, r.Ordered)
    (inv : AtomicInv nw s a r old fetched) (inside : w < a.next)
    (member : .wend ∈ (s.lanes w).mail) (more : a.received + 1 ≠ nw) :
    Inv nw { s with
      master := .atomic { a with received := a.received + 1 }
      lanes := Function.update s.lanes w ((s.lanes w).keep (s.rest w)) } ∧
    State.measure nw { s with
      master := .atomic { a with received := a.received + 1 }
      lanes := Function.update s.lanes w ((s.lanes w).keep (s.rest w)) } < s.measure nw := by
  obtain ⟨busy, wends, work⟩ := inv.totals inside member
  obtain ⟨counts, beyond, accounts⟩ := inv.keep inside
  have received := inv.received_eq
  have fetchedLe := inv.fetched_le
  refine ⟨.atomic { a with received := a.received + 1 } r old fetched rfl ordered ?_, ?_⟩
  · exact
      { history := ⟨inv.history.requests_eq, inv.history.fn_eq, inv.history.answered_eq,
          inv.history.ordered⟩
        size_eq := inv.size_eq
        start_eq := inv.start_eq
        room := inv.room
        atomicI_eq := inv.atomicI_eq
        fetched_le := by
          dsimp only
          omega
        next_le := inv.next_le
        received_lt := by
          have before := inv.received_lt
          dsimp only
          omega
        beyond := beyond
        counts := counts
        received_eq := by
          dsimp only
          omega
        done := fun _ => inv.done (by omega)
        accounts_eq := accounts }
  · simp only [State.measure, serves, Atomic.indices]
    have same : a.received + 1 + total Lane.wends nw
        (Function.update s.lanes w ((s.lanes w).keep (s.rest w))) =
          a.received + total Lane.wends nw s.lanes := by omega
    rw [same]
    omega

/-- The master receives a reply about the loop with the counter. -/
theorem receive_atomic (serves : s.master = .atomic a) (ordered : ∀ r ∈ old, r.Ordered)
    (inv : AtomicInv nw s a r old fetched) (receives : s.receive nw w = some s') :
    Inv nw s' ∧ s'.measure nw < s.measure nw := by
  simp only [State.receive, serves] at receives
  split at receives
  case isTrue => cases receives
  rename_i ready
  rw [not_or, not_lt, not_not] at ready
  obtain ⟨-, member⟩ := ready
  have inside : w < a.next := by
    refine inv.lt_next fun new => ?_
    rw [new] at member
    cases member
  split at receives
  · rename_i all
    cases receives
    exact receive_counted serves ordered inv inside member all
  · rename_i more
    cases receives
    exact receive_left serves ordered inv inside member more

end Counter

/-- A step on the requests that the parties have keeps the invariant and lowers the measure. -/
theorem work_inv (inv : Inv nw s) (works : Work nw s s') :
    Inv nw s' ∧ s'.measure nw < s.measure nw := by
  obtain ⟨event, known, acts⟩ := works
  cases event with
  | request r => exact absurd rfl (known r)
  | send => exact send_inv inv acts
  | begin w => exact begin_inv inv acts
  | next w =>
    have goes : s.next w = some s' := acts
    cases inv with
    | idle waits answered called ordered lanes =>
      rw [State.next, lanes w] at goes
      cases goes
    | generic g r old plus count sent serves ordered inv =>
      exact next_generic serves ordered inv goes
    | atomic a r old fetched serves ordered inv => exact next_atomic serves ordered inv goes
  | receive w =>
    have receives : s.receive nw w = some s' := acts
    cases inv with
    | idle waits =>
      rw [State.receive, waits] at receives
      cases receives
    | generic g r old plus count sent serves ordered inv =>
      exact receive_generic serves ordered inv receives
    | atomic a r old fetched serves ordered inv => exact receive_atomic serves ordered inv receives

/-- A worker that has a message can take it or go on. -/
theorem exists_worker_step {w : Nat} (busy : 0 < (s.lanes w).busy)
    (counter : ∀ size fn, (s.lanes w).current = some (.atomic size fn none) →
      s.atomicI.isSome) : ∃ s', Work nw s s' := by
  cases current : (s.lanes w).current with
  | none =>
    cases queue : (s.lanes w).queue with
    | nil => simp [Lane.busy, current, queue] at busy
    | cons message queue' =>
      have begins : (s.lanes w).begin.isSome := by
        generalize s.lanes w = lane at current queue
        obtain ⟨queue, current', mail⟩ := lane
        obtain rfl := current
        obtain rfl := queue
        cases message <;> rfl
      obtain ⟨lane, begins⟩ := Option.isSome_iff_exists.mp begins
      exact ⟨_, .begin w, by simp, Option.map_eq_some_iff.mpr ⟨lane, begins, rfl⟩⟩
  | some hand =>
    have goes : (s.next w).isSome := by
      unfold State.next
      simp only [current]
      rcases hand with ⟨i, stop, fn⟩ | ⟨size, fn, _ | i⟩
      · dsimp only
        split <;> rfl
      · rw [Option.isSome_map]
        exact counter size fn current
      · rfl
    obtain ⟨s', goes⟩ := Option.isSome_iff_exists.mp goes
    exact ⟨s', .next w, by simp, goes⟩

/-- A worker with a reply is received where the master has sent all first messages. -/
theorem receive_isSome {g : Generic} {w : Nat} (serves : s.master = .generic g)
    (returned : ¬(g.next < nw ∧ g.pStart < g.stop)) (has : (s.lanes w).mail ≠ []) :
    ∃ s', Work nw s s' := by
  have receives : (s.receive nw w).isSome := by
    unfold State.receive
    simp only [serves, if_neg returned]
    split
    · rename_i none
      exact absurd none has
    · split <;> rfl
    · split <;> rfl
  obtain ⟨s', receives⟩ := Option.isSome_iff_exists.mp receives
  exact ⟨s', .receive w, by simp, receives⟩

/-- While a request is not answered the parties can go on. -/
theorem Inv.live (positive : 0 < nw) (inv : Inv nw s) (serves : s.master ≠ .idle) :
    ∃ s', Work nw s s' := by
  cases inv with
  | idle waits => exact absurd waits serves
  | generic g r old plus count sent serves ordered inv =>
    by_cases sending : g.next < nw ∧ g.pStart < g.stop
    · exact ⟨_, .send, by simp, by simp only [act, serves]; exact if_pos sending⟩
    · rcases inv.owed with more | some
      · have all : g.next = nw := by
          have reached := inv.next_le
          omega
        rcases inv.supply more 0 (by omega) with queued | asked
        · refine exists_worker_step (w := 0) ?_ ?_
          · have long := List.length_pos_of_ne_nil queued
            unfold Lane.busy
            omega
          · intro size fn current
            obtain ⟨_, _, same⟩ := (inv.chunks 0).current _ current
            cases same
        · exact receive_isSome serves sending (List.ne_nil_of_mem asked)
      · rw [inv.nRes_eq] at some
        rcases Nat.add_pos_iff_pos_or_pos.mp some with busy | wends
        · obtain ⟨w, -, busy⟩ := Finset.exists_ne_zero_of_sum_ne_zero busy.ne'
          refine exists_worker_step (w := w) (Nat.pos_of_ne_zero busy) ?_
          intro size fn current
          obtain ⟨_, _, same⟩ := (inv.chunks w).current _ current
          cases same
        · obtain ⟨w, -, wends⟩ := Finset.exists_ne_zero_of_sum_ne_zero wends.ne'
          refine receive_isSome (w := w) serves sending ?_
          exact List.ne_nil_of_mem (List.count_pos_iff.mp (Nat.pos_of_ne_zero wends))
  | atomic a r old fetched serves ordered inv =>
    by_cases sending : a.next < nw
    · exact ⟨_, .send, by simp, by simp only [act, serves]; exact if_pos sending⟩
    · have received := inv.received_eq
      have few := inv.received_lt
      rcases Nat.add_pos_iff_pos_or_pos.mp
        (show 0 < total Lane.busy nw s.lanes + total Lane.wends nw s.lanes by omega) with
        busy | wends
      · obtain ⟨w, -, busy⟩ := Finset.exists_ne_zero_of_sum_ne_zero busy.ne'
        refine exists_worker_step (w := w) (Nat.pos_of_ne_zero busy) ?_
        intro _ _ _
        rw [inv.atomicI_eq]
        rfl
      · obtain ⟨w, -, wends⟩ := Finset.exists_ne_zero_of_sum_ne_zero wends.ne'
        have member := List.count_pos_iff.mp (Nat.pos_of_ne_zero wends)
        have receives : (s.receive nw w).isSome := by
          unfold State.receive
          simp only [serves]
          rw [if_neg (by simp [sending, member])]
          split <;> rfl
        obtain ⟨s', receives⟩ := Option.isSome_iff_exists.mp receives
        exact ⟨s', .receive w, by simp, receives⟩

/-- The calls are among those that the requests ask for. -/
theorem Inv.called_le (inv : Inv nw s) :
    (s.called : Multiset (Nat × Nat)) ≤ wanted 0 s.requests := by
  cases inv with
  | idle waits answered called => exact called.le
  | generic g r old plus count sent serves ordered inv =>
    have inside : Chunks.offset g.chunk plus sent ≤ _ := Chunks.offset_le inv.sent_le
    rw [inv.total_eq] at inside
    rw [inv.history.requests_eq, wanted_append, zero_add, ← inv.history.fn_eq]
    calc (s.called : Multiset (Nat × Nat)) ≤ s.accounts nw := Multiset.le_add_right _ _
      _ = wanted 0 old + pieces g.fn r.start (Chunks.offset g.chunk plus sent) := inv.accounts_eq
      _ ≤ wanted 0 old + pieces g.fn r.start (r.stop - r.start) :=
        add_le_add_right (pieces_le inside) _
  | atomic a r old fetched serves ordered inv =>
    rw [inv.history.requests_eq, wanted_append, zero_add, ← inv.history.fn_eq]
    have part : pieces a.fn 0 (min fetched a.size) ≤ pieces a.fn r.start (r.stop - r.start) := by
      rw [← inv.size_eq]
      rcases inv.start_eq with zero | empty
      · rw [zero]
        exact pieces_le (min_le_right _ _)
      · have none : a.size = 0 := by rw [inv.size_eq, empty, Nat.sub_self]
        rw [none, Nat.min_zero, pieces_zero, pieces_zero]
    calc (s.called : Multiset (Nat × Nat)) ≤ s.accounts nw := Multiset.le_add_right _ _
      _ = wanted 0 old + pieces a.fn 0 (min fetched a.size) := inv.accounts_eq
      _ ≤ wanted 0 old + pieces a.fn r.start (r.stop - r.start) := add_le_add_right part _

/-- An element of a sum is one of a summand. -/
theorem exists_mem_of_mem_sum {calls : List (Multiset (Nat × Nat))} {call : Nat × Nat}
    (member : call ∈ calls.sum) : ∃ part ∈ calls, call ∈ part := by
  induction calls with
  | nil => exact absurd member (Multiset.notMem_zero call)
  | cons first calls ih =>
    rw [List.sum_cons] at member
    rcases Multiset.mem_add.mp member with here | later
    · exact ⟨first, List.mem_cons_self, here⟩
    · obtain ⟨part, among, inside⟩ := ih later
      exact ⟨part, List.mem_cons_of_mem _ among, inside⟩

/-- A call that a worker is about to make belongs to a message or to what the worker is doing. -/
theorem Lane.fn_of_mem_left {fn : Nat} {lane : Lane}
    (queue : ∀ message ∈ lane.queue, ∀ call ∈ message.left, call.1 = fn)
    (current : ∀ hand ∈ lane.current, ∀ call ∈ hand.left, call.1 = fn) {call : Nat × Nat}
    (member : call ∈ lane.left) : call.1 = fn := by
  rcases Multiset.mem_add.mp member with queued | held
  · obtain ⟨_, among, inside⟩ := exists_mem_of_mem_sum queued
    obtain ⟨message, known, rfl⟩ := List.mem_map.mp among
    exact queue message known call inside
  · cases holds : lane.current with
    | none => simp [holds] at held
    | some hand =>
      rw [holds] at held
      exact current hand holds call held

/-- The calls that are left are of the function in hand. -/
theorem Lane.Chunks.fn_of_mem_left {fn : Nat} {lane : Lane} (chunks : lane.Chunks fn)
    {call : Nat × Nat} (member : call ∈ lane.left) : call.1 = fn := by
  refine Lane.fn_of_mem_left ?_ ?_ member
  · intro message known call inside
    obtain ⟨start, stop, rfl⟩ := chunks.queue message known
    exact (mem_pieces.mp inside).1
  · intro hand known call inside
    obtain ⟨i, stop, rfl⟩ := chunks.current hand known
    exact (mem_pieces.mp inside).1

/-- The calls that are left are of the function in hand. -/
theorem Lane.Counts.fn_of_mem_left {size fn : Nat} {lane : Lane} (counts : lane.Counts size fn)
    {call : Nat × Nat} (member : call ∈ lane.left) : call.1 = fn := by
  refine Lane.fn_of_mem_left ?_ ?_ member
  · intro message known call inside
    obtain rfl := counts.queue message known
    exact absurd inside (Multiset.notMem_zero call)
  · intro hand known call inside
    obtain ⟨i, rfl⟩ := counts.current hand known
    cases i with
    | none => exact absurd inside (Multiset.notMem_zero call)
    | some i => rw [Multiset.mem_singleton.mp inside]

/-- The calls of the requests before the one that is served have been made. -/
theorem History.made {fn : Nat} {r : Request} {old : List Request} (history : History s fn r old)
    {more : Multiset (Nat × Nat)} (accounts : s.accounts nw = wanted 0 old + more)
    (others : ∀ w, ∀ call ∈ (s.lanes w).left, call.1 = fn) :
    ∀ call ∈ wanted 0 old, call ∈ s.called := by
  intro call member
  have among : call ∈ s.accounts nw := accounts ▸ Multiset.mem_add.mpr (.inl member)
  rcases Multiset.mem_add.mp among with made | left
  · exact Multiset.mem_coe.mp made
  · obtain ⟨w, -, inside⟩ := Multiset.mem_sum.mp left
    obtain ⟨k, r', found, same, -⟩ := mem_wanted.mp member
    have now := others w call inside
    have bound := (List.getElem?_eq_some_iff.mp found).1
    have last := history.fn_eq
    omega

/-- What the invariant says about the calls of the answered requests. -/
theorem Inv.after (inv : Inv nw s) :
    ∃ n ≤ s.requests.length, s.answered = List.range n ∧
      ∀ f < n, ∃ r, s.requests[f]? = some r ∧
        ∀ i, r.start ≤ i → i < r.stop → (f, i) ∈ s.called := by
  -- the requests that have been answered come first, and all calls for them have been made
  have made : ∀ old rest, s.requests = old ++ rest → s.answered = List.range old.length →
      (∀ call ∈ wanted 0 old, call ∈ s.called) →
      ∃ n ≤ s.requests.length, s.answered = List.range n ∧
        ∀ f < n, ∃ r, s.requests[f]? = some r ∧
          ∀ i, r.start ≤ i → i < r.stop → (f, i) ∈ s.called := by
    intro old rest requests answered made
    refine ⟨old.length, by simp [requests], answered, ?_⟩
    intro f less
    have found : old[f]? = some old[f] := List.getElem?_eq_getElem less
    refine ⟨old[f], by rw [requests, List.getElem?_append_left less, found], ?_⟩
    intro i low high
    exact made _ (mem_wanted.mpr ⟨f, old[f], found, by simp, low, by dsimp only; omega⟩)
  cases inv with
  | idle waits answered called =>
    refine made s.requests [] (List.append_nil _).symm answered ?_
    intro call member
    rw [← called] at member
    exact Multiset.mem_coe.mp member
  | generic g r old plus count sent serves ordered inv =>
    exact made old [r] inv.history.requests_eq inv.history.answered_eq
      (inv.history.made inv.accounts_eq fun w _ => (inv.chunks w).fn_of_mem_left)
  | atomic a r old fetched serves ordered inv =>
    exact made old [r] inv.history.requests_eq inv.history.answered_eq
      (inv.history.made inv.accounts_eq fun w _ => (inv.counts w).fn_of_mem_left)

/-- The requests are ordered. -/
theorem Inv.ordered (inv : Inv nw s) : ∀ r ∈ s.requests, r.Ordered := by
  cases inv with
  | idle waits answered called ordered => exact ordered
  | generic g r old plus count sent serves ordered inv =>
    rw [inv.history.requests_eq]
    intro r' member
    rcases List.mem_append.mp member with before | last
    · exact ordered r' before
    · rw [List.mem_singleton.mp last]
      exact inv.history.ordered
  | atomic a r old fetched serves ordered inv =>
    rw [inv.history.requests_eq]
    intro r' member
    rcases List.mem_append.mp member with before | last
    · exact ordered r' before
    · rw [List.mem_singleton.mp last]
      exact inv.history.ordered

/-- The requests are served as far as they have been. -/
theorem Inv.good (positive : 0 < nw) (inv : Inv nw s) : Good nw s := by
  obtain ⟨n, -, answered, after⟩ := inv.after
  refine ⟨?_, ?_, ?_, ?_, ?_, ?_, inv.live positive⟩
  · intro call member
    obtain ⟨k, r, found, same, low, high⟩ :=
      mem_wanted.mp (Multiset.mem_of_le inv.called_le (Multiset.mem_coe.mpr member))
    have ordered := inv.ordered r (List.mem_of_getElem? found)
    obtain ⟨below, -⟩ := ordered
    exact ⟨r, by rw [same, zero_add, found], low, by omega⟩
  · exact Multiset.coe_nodup.mp (Multiset.nodup_of_le inv.called_le (nodup_wanted _ _))
  · rw [answered]
    exact List.nodup_range
  · intro f member
    rw [answered, List.mem_range] at member
    exact after f member
  · intro waits f less
    cases inv with
    | idle _ answered => rw [answered, List.mem_range]; exact less
    | generic g r old plus count sent serves => exact absurd (waits.symm.trans serves) nofun
    | atomic a r old fetched serves => exact absurd (waits.symm.trans serves) nofun
  · intro waits w
    cases inv with
    | idle _ _ _ _ lanes => rw [lanes w]
    | generic g r old plus count sent serves => exact absurd (waits.symm.trans serves) nofun
    | atomic a r old fetched serves => exact absurd (waits.symm.trans serves) nofun

/-- The invariant holds in every reached state. -/
theorem reaches_inv (positive : 0 < nw)
    (reaches : Reaches (fun r => r.Ordered ∧ r.Fits nw) nw s) : Inv nw s := by
  refine reaches.invariant (fun _ spawns => spawn_inv spawns) ?_
  rintro state next inv (⟨r, ⟨ordered, fits⟩, takes⟩ | works)
  · exact request_inv positive ordered fits inv takes
  · exact (work_inv inv works).1

/-- Requests for ranges that the division and the counter fit are served, in whatever order the
workers go on. -/
theorem answers (positive : 0 < nw) (small : nw < 2 ^ 31) :
    Answers (fun r => r.Ordered ∧ r.Fits nw) nw where
  spawns := by rw [spawn, if_pos small]; rfl
  good s reaches := (reaches_inv positive reaches).good positive
  ends := by
    rintro ⟨run, begins, works⟩
    have invs : ∀ i, Inv nw (run i) := by
      intro i
      induction i with
      | zero => exact reaches_inv positive begins
      | succ i ih => exact (work_inv ih (works i)).1
    have falls : ∀ i, (run i).measure nw + i ≤ (run 0).measure nw := by
      intro i
      induction i with
      | zero => exact le_rfl
      | succ i ih =>
        have lower := (work_inv (invs i) (works i)).2
        omega
    have last := falls ((run 0).measure nw + 1)
    omega

/-- Four workers. -/
theorem answers_sample : Answers (fun r => r.Ordered ∧ r.Fits 4) 4 :=
  answers (by decide) (by decide)

/-- A request for an empty range with a grain of zero leaves the master waiting forever. -/
theorem answers_fails :
    ¬∀ nw, 0 < nw → Answers Request.Ordered nw := by
  intro all
  have served := all 1 one_pos
  let first : State :=
    { master := .idle
      lanes := fun _ => {}
      atomicI := none
      called := []
      requests := []
      answered := [] }
  let r : Request := { start := 0, stop := 0, grain := 0 }
  obtain ⟨s, takes⟩ : ∃ s, act 1 (.request r) first = some s := ⟨_, rfl⟩
  have reaches : Reaches Request.Ordered 1 s :=
    .step (.start (show spawn 1 = some first from rfl)) (.inl ⟨r, ⟨le_rfl, by decide⟩, takes⟩)
  cases takes
  obtain ⟨s', event, known, acts⟩ := (served.good _ reaches).live (fun same => by cases same)
  cases event with
  | request r' => exact known r' rfl
  | send => cases acts
  | begin w => cases acts
  | next w => cases acts
  | receive w => cases acts

end P3arsec.Raytrace.OnDemand
