import P3arsec.Raytrace.OnDemand

/-!
# The invariant of the parallel loop on demand

While chunks are sent, `n_res` counts the chunks that workers have and the reports that the master
has not received, and a worker without a chunk has either asked for one or been told nothing. While
the counter is shared, the calls and the indices that have been taken are those below the counter.
-/

namespace P3arsec.Raytrace.OnDemand

open P3arsec.Lib

/-- The calls of a request on indices in a row. -/
def pieces (fn start size : Nat) : Multiset (Nat × Nat) :=
  ((List.range' start size).map fun i => (fn, i) : List (Nat × Nat))

/-- No indices are no calls. -/
@[simp] theorem pieces_zero (fn start : Nat) : pieces fn start 0 = 0 := rfl

/-- The calls of two ranges one after the other. -/
theorem pieces_add (fn start size more : Nat) :
    pieces fn start (size + more) = pieces fn start size + pieces fn (start + size) more := by
  rw [pieces, ← List.range'_append_1, List.map_append, ← Multiset.coe_add]
  rfl

/-- The first call and the others. -/
theorem pieces_succ (fn start size : Nat) :
    pieces fn start (size + 1) = {(fn, start)} + pieces fn (start + 1) size := by
  rw [add_comm, pieces_add]
  rfl

/-- The calls of a range. -/
theorem mem_pieces {fn start size : Nat} {call : Nat × Nat} :
    call ∈ pieces fn start size ↔ call.1 = fn ∧ start ≤ call.2 ∧ call.2 < start + size := by
  simp only [pieces, Multiset.mem_coe, List.mem_map, List.mem_range'_1]
  constructor
  · rintro ⟨i, inside, rfl⟩
    exact ⟨rfl, inside⟩
  · rintro ⟨rfl, inside⟩
    exact ⟨call.2, inside, rfl⟩

/-- The calls of a range are different. -/
theorem nodup_pieces (fn start size : Nat) : (pieces fn start size).Nodup := by
  refine Multiset.coe_nodup.mpr (List.Nodup.map ?_ List.nodup_range')
  intro i j same
  exact (Prod.mk.inj same).2

/-- A longer range has more calls. -/
theorem pieces_le {fn start size more : Nat} (less : size ≤ more) :
    pieces fn start size ≤ pieces fn start more := by
  rw [← Nat.add_sub_cancel' less, pieces_add]
  exact Multiset.le_add_right _ _

/-- The calls that requests ask for, where the first of them has a number. -/
def wanted : Nat → List Request → Multiset (Nat × Nat)
  | _, [] => 0
  | fn, r :: requests => pieces fn r.start (r.stop - r.start) + wanted (fn + 1) requests

/-- One more request. -/
theorem wanted_append (fn : Nat) (requests : List Request) (r : Request) :
    wanted fn (requests ++ [r]) =
      wanted fn requests + pieces (fn + requests.length) r.start (r.stop - r.start) := by
  induction requests generalizing fn with
  | nil => simp [wanted]
  | cons first requests ih =>
    have shift : fn + 1 + requests.length = fn + (requests.length + 1) := by omega
    rw [List.cons_append, wanted, ih, wanted, List.length_cons, shift, add_assoc]

/-- The calls that are wanted. -/
theorem mem_wanted {fn : Nat} {requests : List Request} {call : Nat × Nat} :
    call ∈ wanted fn requests ↔
      ∃ k r, requests[k]? = some r ∧ call.1 = fn + k ∧ r.start ≤ call.2 ∧
        call.2 < r.start + (r.stop - r.start) := by
  induction requests generalizing fn with
  | nil => simp [wanted]
  | cons first requests ih =>
    rw [wanted, Multiset.mem_add, mem_pieces, ih]
    constructor
    · rintro (here | ⟨k, r, found, rest⟩)
      · exact ⟨0, first, rfl, here⟩
      · exact ⟨k + 1, r, found, by omega⟩
    · rintro ⟨_ | k, r, found, rest⟩
      · obtain rfl := Option.some.inj found
        exact .inl rest
      · exact .inr ⟨k, r, found, by omega⟩

/-- The calls that are wanted are different. -/
theorem nodup_wanted (fn : Nat) (requests : List Request) : (wanted fn requests).Nodup := by
  induction requests generalizing fn with
  | nil => exact Multiset.nodup_zero
  | cons first requests ih =>
    refine Multiset.nodup_add.mpr ⟨nodup_pieces _ _ _, ih _, ?_⟩
    rw [Multiset.disjoint_left]
    intro call here there
    obtain ⟨k, r, -, later, -⟩ := mem_wanted.mp there
    have now := (mem_pieces.mp here).1
    omega

/-- The calls that a message asks for. -/
def Message.left : Message → Multiset (Nat × Nat)
  | .chunk start stop fn => pieces fn start (stop - start)
  | .atomic _ _ => 0

/-- The calls that a worker is about to make. -/
def Hand.left : Hand → Multiset (Nat × Nat)
  | .chunk i stop fn => pieces fn i (stop - i)
  | .atomic _ fn (some i) => {(fn, i)}
  | .atomic _ _ none => 0

/-- A bound on the steps that a message asks for. -/
def Message.work : Message → Nat
  | .chunk start stop _ => 4 + (stop - start)
  | .atomic _ _ => 4

/-- A bound on the steps that a worker is about to make. -/
def Hand.work : Hand → Nat
  | .chunk i stop _ => 2 + (stop - i)
  | .atomic _ _ (some _) => 3
  | .atomic _ _ none => 2

namespace Lane

/-- The calls that have still to be made by a worker. -/
def left (lane : Lane) : Multiset (Nat × Nat) :=
  (lane.queue.map Message.left).sum + (lane.current.map Hand.left).getD 0

/-- The messages that a worker has not finished. -/
def busy (lane : Lane) : Nat := lane.queue.length + lane.current.toList.length

/-- The reports that the master has not received. -/
def wends (lane : Lane) : Nat := lane.mail.count .wend

/-- A bound on the steps that a worker causes. -/
def work (lane : Lane) : Nat :=
  (lane.queue.map Message.work).sum + (lane.current.map Hand.work).getD 0 + lane.mail.length

/-- A message is counted. -/
theorem busy_send (message : Message) (lane : Lane) : (lane.send message).busy = lane.busy + 1 := by
  simp only [send, busy, List.length_append, List.length_singleton]
  omega

/-- A message is no reply. -/
theorem wends_send (message : Message) (lane : Lane) : (lane.send message).wends = lane.wends := rfl

/-- The work of a message. -/
theorem work_send (message : Message) (lane : Lane) :
    (lane.send message).work = lane.work + message.work := by
  simp only [send, work, List.map_append, List.map_singleton, List.sum_append, List.sum_singleton]
  omega

/-- The calls of a message are left. -/
theorem left_send (message : Message) (lane : Lane) :
    (lane.send message).left = lane.left + message.left := by
  simp only [send, left, List.map_append, List.map_singleton, List.sum_append, List.sum_singleton]
  exact add_right_comm _ _ _

/-- What taking a message does to a worker. -/
theorem begin_cases {lane lane' : Lane} (begins : lane.begin = some lane') :
    ∃ message queue, lane.queue = message :: queue ∧ lane.current = none ∧ lane'.queue = queue ∧
      (∃ hand, lane'.current = some hand ∧ hand.left = message.left ∧
        hand.work + 1 < message.work ∧
        ((∃ start stop fn, message = .chunk start stop fn ∧ hand = .chunk start stop fn ∧
            lane'.mail = lane.mail ++ [.wget]) ∨
          ∃ size fn, message = .atomic size fn ∧ hand = .atomic size fn none ∧
            lane'.mail = lane.mail)) := by
  unfold begin at begins
  split at begins
  · rename_i start stop fn queue mail
    cases begins
    exact ⟨_, queue, rfl, rfl, rfl, _, rfl, rfl, by simp only [Hand.work, Message.work]; omega,
      .inl ⟨start, stop, fn, rfl, rfl, rfl⟩⟩
  · rename_i size fn queue mail
    cases begins
    exact ⟨_, queue, rfl, rfl, rfl, _, rfl, rfl, by simp only [Hand.work, Message.work]; omega,
      .inr ⟨size, fn, rfl, rfl, rfl⟩⟩
  · cases begins

/-- Taking a message keeps the accounts of a worker. -/
theorem begin_accounts {lane lane' : Lane} (begins : lane.begin = some lane') :
    0 < lane.busy ∧ lane'.busy = lane.busy ∧ lane'.wends = lane.wends ∧ lane'.work < lane.work ∧
      lane'.left = lane.left := by
  obtain ⟨message, queue, queued, free, queued', hand, current, same, lower, mail⟩ :=
    begin_cases begins
  have mail : lane'.wends = lane.wends ∧ lane'.mail.length ≤ lane.mail.length + 1 := by
    rcases mail with ⟨_, _, _, -, -, mail⟩ | ⟨_, _, -, -, mail⟩ <;> simp [wends, mail]
  refine ⟨?_, ?_, mail.1, ?_, ?_⟩
  · simp [busy, queued]
  · simp [busy, queued, free, queued', current]
  · simp only [work, queued, free, queued', current, List.map_cons, List.sum_cons, Option.map_none,
      Option.map_some, Option.getD_none, Option.getD_some]
    omega
  · simp only [left, queued, free, queued', current, same, List.map_cons, List.sum_cons,
      Option.map_none, Option.map_some, Option.getD_none, Option.getD_some]
    rw [add_zero, add_comm]

/-- Finishing keeps the sum of the messages and the reports. -/
theorem finish_accounts {lane : Lane} {hand : Hand} (current : lane.current = some hand)
    (nothing : hand.left = 0) (some : 2 ≤ hand.work) :
    lane.finish.busy + 1 = lane.busy ∧ lane.finish.wends = lane.wends + 1 ∧
      lane.finish.work < lane.work ∧ lane.finish.left = lane.left := by
  refine ⟨?_, ?_, ?_, ?_⟩
  · simp [finish, busy, current]
  · simp [finish, wends]
  · simp only [finish, work, current, Option.map_none, Option.map_some, Option.getD_none,
      Option.getD_some, List.length_append, List.length_singleton]
    omega
  · simp [finish, left, current, nothing]

/-- Going on with another hand keeps the messages and the reports. -/
theorem hand_accounts {lane : Lane} {hand : Hand} (hand' : Hand)
    (current : lane.current = some hand) :
    (lane.hold hand').busy = lane.busy ∧ (lane.hold hand').wends = lane.wends ∧
      (lane.hold hand').work + hand.work = lane.work + hand'.work ∧
      (lane.hold hand').left + hand.left = lane.left + hand'.left := by
  refine ⟨?_, rfl, ?_, ?_⟩
  · simp [hold, busy, current]
  · simp only [hold, work, current, Option.map_some, Option.getD_some]
    omega
  · simp only [hold, left, current, Option.map_some, Option.getD_some]
    exact add_right_comm _ _ _

/-- A worker of which the master has received everything. -/
theorem eq_new {lane : Lane} (idle : lane.busy = 0) (none : lane.mail = []) : lane = {} := by
  obtain ⟨queue, current, mail⟩ := lane
  cases current <;> simp_all [busy]

end Lane

/-- A sum over the workers. -/
def total {M : Type*} [AddCommMonoid M] (weight : Lane → M) (nw : Nat) (lanes : Nat → Lane) : M :=
  ∑ w ∈ Finset.range nw, weight (lanes w)

/-- The total when one lane changes. -/
theorem total_update {M : Type*} [AddCommMonoid M] (weight : Lane → M) (lanes : Nat → Lane)
    (lane : Lane) {w nw : Nat} (inside : w < nw) :
    total weight nw (Function.update lanes w lane) + weight (lanes w) =
      total weight nw lanes + weight lane :=
  sum_range_update weight lanes lane inside

/-- The total of lanes without weight. -/
theorem total_zero {M : Type*} [AddCommMonoid M] (weight : Lane → M) {nw : Nat} {lanes : Nat → Lane}
    (none : ∀ w < nw, weight (lanes w) = 0) : total weight nw lanes = 0 :=
  Finset.sum_eq_zero fun w inside => none w (Finset.mem_range.mp inside)

/-- A lane weighs no more than all. -/
theorem le_total (weight : Lane → Nat) (lanes : Nat → Lane) {w nw : Nat} (inside : w < nw) :
    weight (lanes w) ≤ total weight nw lanes :=
  Finset.single_le_sum (f := fun w => weight (lanes w)) (fun _ _ => Nat.zero_le _)
    (Finset.mem_range.mpr inside)

/-- The requests before the one that the master serves have been answered. -/
structure History (s : State) (fn : Nat) (r : Request) (old : List Request) : Prop where
  requests_eq : s.requests = old ++ [r]
  fn_eq : fn = old.length
  answered_eq : s.answered = List.range old.length
  ordered : r.Ordered

/-- The calls that have been made, and those that workers are about to make. -/
def State.accounts (nw : Nat) (s : State) : Multiset (Nat × Nat) :=
  (s.called : Multiset (Nat × Nat)) + total Lane.left nw s.lanes

/-- A worker has only chunks of a request, and has not asked for more than the next chunk. -/
structure Lane.Chunks (fn : Nat) (lane : Lane) : Prop where
  queue : ∀ message ∈ lane.queue, ∃ start stop, message = .chunk start stop fn
  current : ∀ hand ∈ lane.current, ∃ i stop, hand = .chunk i stop fn
  /-- A worker reports after it has asked. -/
  mail : lane.current = none → lane.mail.getLast? ≠ some .wget

/-- What holds while chunks are sent. There are `count` chunks, of which `sent` have been sent. -/
structure GenericInv (nw : Nat) (s : State) (g : Generic) (r : Request) (old : List Request)
    (plus count sent : Nat) : Prop where
  history : History s g.fn r old
  stop_eq : g.stop = r.stop
  total_eq : count * g.chunk + plus = r.stop - r.start
  plus_le : plus ≤ count
  count_le : count ≤ r.stop - r.start
  sent_le : sent ≤ count
  pStart_eq : g.pStart = r.start + Chunks.offset g.chunk plus sent
  plus_eq : g.plus = plus - sent
  nRes_le : g.nRes ≤ sent
  next_le : g.next ≤ nw
  /-- Workers that the first loop has not reached have nothing. -/
  beyond : ∀ w, g.next ≤ w → s.lanes w = {}
  chunks : ∀ w, (s.lanes w).Chunks g.fn
  /-- While there are chunks to send each worker has one to take or has asked for one. -/
  supply : g.pStart < g.stop → ∀ w < g.next, (s.lanes w).queue ≠ [] ∨ .wget ∈ (s.lanes w).mail
  nRes_eq : g.nRes = total Lane.busy nw s.lanes + total Lane.wends nw s.lanes
  owed : g.pStart < g.stop ∨ 0 < g.nRes
  accounts_eq : s.accounts nw =
    wanted 0 old + pieces g.fn r.start (Chunks.offset g.chunk plus sent)

/-- A worker has only the loop with the counter. -/
structure Lane.Counts (size fn : Nat) (lane : Lane) : Prop where
  queue : ∀ message ∈ lane.queue, message = .atomic size fn
  current : ∀ hand ∈ lane.current, ∃ i, hand = .atomic size fn i
  mail : ∀ reply ∈ lane.mail, reply = .wend

/-- What holds while the workers share the counter, from which an index has been fetched a number
of times. -/
structure AtomicInv (nw : Nat) (s : State) (a : Atomic) (r : Request) (old : List Request)
    (fetched : Nat) : Prop where
  history : History s a.fn r old
  size_eq : a.size = r.stop - r.start
  start_eq : r.start = 0 ∨ r.start = r.stop
  room : a.size + nw ≤ 2 ^ 64
  atomicI_eq : s.atomicI = some (fetched % 2 ^ 64)
  fetched_le : fetched ≤ a.size + (a.received + total Lane.wends nw s.lanes)
  next_le : a.next ≤ nw
  received_lt : a.received < nw
  beyond : ∀ w, a.next ≤ w → s.lanes w = {}
  counts : ∀ w, (s.lanes w).Counts a.size a.fn
  received_eq : total Lane.busy nw s.lanes + total Lane.wends nw s.lanes + a.received = a.next
  /-- A worker leaves its loop when the indices have run out. -/
  done : 0 < a.received + total Lane.wends nw s.lanes → a.size ≤ fetched
  accounts_eq : s.accounts nw = wanted 0 old + pieces a.fn 0 (min fetched a.size)

/-- What holds in every state. -/
inductive Inv (nw : Nat) (s : State) : Prop where
  | idle (waits : s.master = .idle) (answered : s.answered = List.range s.requests.length)
      (called : (s.called : Multiset (Nat × Nat)) = wanted 0 s.requests)
      (ordered : ∀ r ∈ s.requests, r.Ordered) (lanes : ∀ w, s.lanes w = {})
  | generic (g : Generic) (r : Request) (old : List Request) (plus count sent : Nat)
      (serves : s.master = .generic g) (ordered : ∀ r ∈ old, r.Ordered)
      (inv : GenericInv nw s g r old plus count sent)
  | atomic (a : Atomic) (r : Request) (old : List Request) (fetched : Nat)
      (serves : s.master = .atomic a) (ordered : ∀ r ∈ old, r.Ordered)
      (inv : AtomicInv nw s a r old fetched)

variable {nw : Nat} {s s' : State}

/-- New lanes weigh nothing. -/
theorem total_new {M : Type*} [AddCommMonoid M] (weight : Lane → M) (zero : weight {} = 0) {n : Nat}
    {lanes : Nat → Lane} (none : ∀ w, lanes w = {}) : total weight n lanes = 0 :=
  total_zero weight fun w _ => by rw [none w, zero]

/-- The invariant holds at the start. -/
theorem spawn_inv (spawns : spawn nw = some s) : Inv nw s := by
  unfold spawn at spawns
  split at spawns
  case isFalse => cases spawns
  cases spawns
  exact .idle rfl rfl rfl (fun _ member => nomatch member) fun _ => rfl

/-- The division of a range that a request fits. -/
theorem exists_division {r : Request} (positive : 0 < nw) (many : r.grain ≠ 1)
    (fits : r.Fits nw) :
    ∃ count, count * (division nw (r.stop - r.start) r.grain).1 +
        (division nw (r.stop - r.start) r.grain).2 = r.stop - r.start ∧
      (division nw (r.stop - r.start) r.grain).2 ≤ count ∧ count ≤ r.stop - r.start := by
  rw [Request.Fits, if_neg many] at fits
  obtain ⟨some, grain⟩ := fits
  unfold division
  split
  · rename_i small
    refine ⟨(r.stop - r.start) / r.grain, Nat.div_add_mod' _ _, by omega, Nat.div_le_self _ _⟩
  · have divided := Nat.div_add_mod (r.stop - r.start) nw
    have less := Nat.mod_lt (r.stop - r.start) positive
    rcases Nat.lt_or_ge (r.stop - r.start) nw with few | enough
    · refine ⟨r.stop - r.start, ?_, ?_, le_rfl⟩
      · simp [Nat.div_eq_of_lt few, Nat.mod_eq_of_lt few]
      · exact Nat.mod_le _ _
    · exact ⟨nw, divided, less.le, enough⟩

/-- A request that the master takes. -/
theorem request_inv {r : Request} (positive : 0 < nw) (ordered : r.Ordered)
    (fits : r.Fits nw) (inv : Inv nw s) (takes : act nw (.request r) s = some s') : Inv nw s' := by
  cases inv with
  | generic g r old plus count sent serves =>
    simp only [act, serves] at takes
    cases takes
  | atomic a r old fetched serves =>
    simp only [act, serves] at takes
    cases takes
  | idle waits answered called others lanes =>
    simp only [act, waits] at takes
    cases takes
    have accounts : State.accounts nw s = wanted 0 s.requests := by
      rw [State.accounts, total_new Lane.left rfl lanes, add_zero, called]
    by_cases single : r.grain = 1
    · rw [Request.Fits, if_pos single] at fits
      refine .atomic ⟨s.requests.length, r.stop - r.start, 0, 0⟩ r s.requests 0 (if_pos single)
        others ?_
      exact
        { history := ⟨rfl, rfl, answered, ordered⟩
          size_eq := rfl
          start_eq := fits.1
          room := fits.2
          atomicI_eq := if_pos single
          fetched_le := Nat.zero_le _
          next_le := Nat.zero_le _
          received_lt := positive
          beyond := fun w _ => lanes w
          counts := fun w => by
            dsimp only
            rw [lanes w]
            exact ⟨by simp, by simp, by simp⟩
          received_eq := by
            dsimp only
            rw [total_new Lane.busy rfl lanes, total_new Lane.wends rfl lanes]
            rfl
          done := fun some => by
            dsimp only at some
            rw [total_new Lane.wends rfl lanes] at some
            exact absurd some (lt_irrefl _)
          accounts_eq := by
            simpa [State.accounts] using accounts }
    · obtain ⟨count, total, plus, few⟩ := exists_division positive single fits
      rw [Request.Fits, if_neg single] at fits
      refine .generic ⟨s.requests.length, r.stop, (division nw (r.stop - r.start) r.grain).1,
        (division nw (r.stop - r.start) r.grain).2, r.start, 0, 0⟩ r s.requests
        (division nw (r.stop - r.start) r.grain).2 count 0
        (if_neg single) others ?_
      exact
        { history := ⟨rfl, rfl, answered, ordered⟩
          stop_eq := rfl
          total_eq := total
          plus_le := plus
          count_le := few
          sent_le := Nat.zero_le _
          pStart_eq := by simp
          plus_eq := rfl
          nRes_le := le_rfl
          next_le := Nat.zero_le _
          beyond := fun w _ => lanes w
          chunks := fun w => by
            dsimp only
            rw [lanes w]
            exact ⟨by simp, by simp, by simp⟩
          supply := fun _ w less => absurd less (Nat.not_lt_zero w)
          nRes_eq := by
            dsimp only
            rw [total_new Lane.busy rfl lanes, total_new Lane.wends rfl lanes]
            rfl
          owed := .inl fits.1
          accounts_eq := by
            simpa [State.accounts] using accounts }

/-- The accounts after a worker has changed. -/
theorem accounts_update {w : Nat} (inside : w < nw) {lane : Lane} {called : List (Nat × Nat)}
    {more : Multiset (Nat × Nat)}
    (change : (called : Multiset (Nat × Nat)) + lane.left = s.called + (s.lanes w).left + more) :
    (called : Multiset (Nat × Nat)) + total Lane.left nw (Function.update s.lanes w lane) =
      s.accounts nw + more := by
  have sum := total_update Lane.left s.lanes lane inside
  rw [← add_left_inj (s.lanes w).left, add_assoc, sum, add_left_comm, change, State.accounts]
  abel

namespace GenericInv

variable {g : Generic} {r : Request} {old : List Request} {plus count sent w : Nat}

/-- A worker that has something has been reached by the first loop. -/
theorem lt_next (inv : GenericInv nw s g r old plus count sent) (has : s.lanes w ≠ {}) :
    w < g.next := by
  by_contra beyond
  exact has (inv.beyond w (not_lt.mp beyond))

/-- A step of a worker. -/
theorem worker (inv : GenericInv nw s g r old plus count sent) (inside : w < g.next) {lane : Lane}
    {called : List (Nat × Nat)} (chunks : lane.Chunks g.fn)
    (supply : g.pStart < g.stop → lane.queue ≠ [] ∨ .wget ∈ lane.mail)
    (same : lane.busy + lane.wends = (s.lanes w).busy + (s.lanes w).wends)
    (accounts : (called : Multiset (Nat × Nat)) + lane.left = s.called + (s.lanes w).left) :
    GenericInv nw { s with lanes := Function.update s.lanes w lane, called } g r old plus count
      sent :=
  { inv with
    history := ⟨inv.history.requests_eq, inv.history.fn_eq, inv.history.answered_eq,
      inv.history.ordered⟩
    beyond := by
      intro other beyond
      dsimp only
      rw [Function.update_of_ne (by omega)]
      exact inv.beyond other beyond
    chunks := by
      intro other
      dsimp only
      rw [Function.update_apply]
      split
      · exact chunks
      · exact inv.chunks other
    supply := by
      intro more other less
      dsimp only
      rw [Function.update_apply]
      split
      · exact supply more
      · exact inv.supply more other less
    nRes_eq := by
      have busy := total_update Lane.busy s.lanes lane (inside.trans_le inv.next_le)
      have wends := total_update Lane.wends s.lanes lane (inside.trans_le inv.next_le)
      have nRes := inv.nRes_eq
      dsimp only
      omega
    accounts_eq := by
      rw [← inv.accounts_eq, ← add_zero (s.accounts nw)]
      exact accounts_update (inside.trans_le inv.next_le) (by rw [accounts, add_zero]) }

/-- While there are indices left there are chunks left. -/
theorem lt_count (inv : GenericInv nw s g r old plus count sent) :
    g.pStart < g.stop ↔ sent < count := by
  have last := Chunks.offset_lt_iff inv.sent_le inv.plus_le
    (by rw [inv.total_eq]; exact inv.count_le)
  have ordered := inv.history.ordered.1
  rw [inv.total_eq] at last
  rw [inv.pStart_eq, inv.stop_eq]
  omega

/-- What `send_chunk` does. -/
theorem send_eq (inv : GenericInv nw s g r old plus count sent) (more : g.pStart < g.stop) :
    g.pEnd = r.start + Chunks.offset g.chunk plus (sent + 1) ∧
      (g.nRes + 1) % 2 ^ 64 = g.nRes + 1 ∧
      wanted 0 old + pieces g.fn r.start (Chunks.offset g.chunk plus (sent + 1)) =
        s.accounts nw + (Message.chunk g.pStart g.pEnd g.fn).left := by
  have less := inv.lt_count.mp more
  have inside : Chunks.offset g.chunk plus (sent + 1) ≤ count * g.chunk + plus :=
    Chunks.offset_le less
  have succ : Chunks.offset g.chunk plus (sent + 1) = Chunks.offset g.chunk plus sent + g.chunk +
      if 0 < plus - sent then 1 else 0 := Chunks.offset_succ
  have ordered := inv.history.ordered
  have total := inv.total_eq
  have few := inv.count_le
  have counted := inv.nRes_le
  obtain ⟨below, fits⟩ := ordered
  have ends : g.pEnd = r.start + Chunks.offset g.chunk plus (sent + 1) := by
    unfold Generic.pEnd
    rw [inv.pStart_eq, inv.plus_eq, Nat.mod_eq_of_lt] <;> omega
  refine ⟨ends, Nat.mod_eq_of_lt (by omega), ?_⟩
  have size : Chunks.offset g.chunk plus (sent + 1) =
      Chunks.offset g.chunk plus sent + (g.pEnd - g.pStart) := by
    rw [ends, inv.pStart_eq]
    omega
  rw [size, pieces_add, ← add_assoc, ← inv.accounts_eq, ← inv.pStart_eq]
  rfl

/-- A chunk has an index, and ends within the range. -/
theorem lt_pEnd (inv : GenericInv nw s g r old plus count sent) (more : g.pStart < g.stop) :
    g.pStart < g.pEnd ∧ g.pEnd ≤ g.stop := by
  obtain ⟨ends, -⟩ := inv.send_eq more
  have less := inv.lt_count.mp more
  have inside : Chunks.offset g.chunk plus (sent + 1) ≤ count * g.chunk + plus :=
    Chunks.offset_le less
  have before := Chunks.offset_lt_iff inv.sent_le inv.plus_le
    (by rw [inv.total_eq]; exact inv.count_le)
  have succ : Chunks.offset g.chunk plus (sent + 1) = Chunks.offset g.chunk plus sent + g.chunk +
      if 0 < plus - sent then 1 else 0 := Chunks.offset_succ
  have total := inv.total_eq
  have few := inv.count_le
  have ordered := inv.history.ordered.1
  have first := inv.pStart_eq
  have stop := inv.stop_eq
  have part := inv.plus_le
  -- chunks of no size have one more index each while there are any left
  have grows : 0 < g.chunk ∨ 0 < plus - sent := by
    rcases Nat.eq_zero_or_pos g.chunk with none | some
    · rw [none] at total
      exact .inr (by omega)
    · exact .inl some
  rw [ends]
  split at succ <;> omega

/-- A chunk is sent. -/
theorem send (inv : GenericInv nw s g r old plus count sent) (more : g.pStart < g.stop)
    {next : Nat} (inside : w < next) (le : g.next ≤ next) (next_le : next ≤ nw)
    (all : ∀ other < next, other = w ∨ other < g.next) {lane : Lane} (chunks : lane.Chunks g.fn)
    (busy : lane.busy = (s.lanes w).busy) (wends : lane.wends = (s.lanes w).wends)
    (left : lane.left = (s.lanes w).left) (master : Master) :
    GenericInv nw
      { s with
        master
        lanes := Function.update s.lanes w (lane.send (.chunk g.pStart g.pEnd g.fn)) }
      { g.sent with next } r old plus count (sent + 1) := by
  obtain ⟨ends, counted, accounts⟩ := inv.send_eq more
  exact
    { history := ⟨inv.history.requests_eq, inv.history.fn_eq, inv.history.answered_eq,
        inv.history.ordered⟩
      stop_eq := inv.stop_eq
      total_eq := inv.total_eq
      plus_le := inv.plus_le
      count_le := inv.count_le
      sent_le := inv.lt_count.mp more
      pStart_eq := ends
      plus_eq := by
        have before := inv.plus_eq
        simp only [Generic.sent]
        omega
      nRes_le := by
        have before := inv.nRes_le
        simp only [Generic.sent, counted]
        omega
      next_le := next_le
      beyond := by
        intro other beyond
        dsimp only at beyond ⊢
        rw [Function.update_of_ne (by omega)]
        exact inv.beyond other (le.trans beyond)
      chunks := by
        intro other
        dsimp only
        rw [Function.update_apply]
        split
        · refine ⟨?_, chunks.current, chunks.mail⟩
          intro message member
          rcases List.mem_append.mp member with old | new
          · exact chunks.queue message old
          · exact ⟨_, _, List.mem_singleton.mp new⟩
        · exact inv.chunks other
      supply := by
        intro _ other less
        dsimp only at less ⊢
        rw [Function.update_apply]
        split
        · exact .inl (by simp [Lane.send])
        · rename_i apart
          rcases all other less with same | before
          · exact absurd same apart
          · exact inv.supply more other before
      nRes_eq := by
        have busy' := total_update Lane.busy s.lanes (lane.send (.chunk g.pStart g.pEnd g.fn))
          (inside.trans_le next_le)
        have wends' := total_update Lane.wends s.lanes (lane.send (.chunk g.pStart g.pEnd g.fn))
          (inside.trans_le next_le)
        have nRes := inv.nRes_eq
        rw [Lane.busy_send, busy] at busy'
        rw [Lane.wends_send, wends] at wends'
        simp only [Generic.sent, counted]
        omega
      owed := by
        simp only [Generic.sent, counted]
        omega
      accounts_eq := by
        simp only [Generic.sent]
        rw [accounts]
        refine accounts_update (inside.trans_le next_le) ?_
        rw [Lane.left_send, left, add_assoc] }

end GenericInv

namespace AtomicInv

variable {a : Atomic} {r : Request} {old : List Request} {fetched w : Nat}

/-- A worker that has something has been reached by the first loop. -/
theorem lt_next (inv : AtomicInv nw s a r old fetched) (has : s.lanes w ≠ {}) : w < a.next := by
  by_contra beyond
  exact has (inv.beyond w (not_lt.mp beyond))

/-- A step of a worker. -/
theorem worker (inv : AtomicInv nw s a r old fetched) (more : Multiset (Nat × Nat))
    (inside : w < a.next) {lane : Lane} {called : List (Nat × Nat)} {atomicI : Option Nat}
    {fetched' : Nat} (counts : lane.Counts a.size a.fn)
    (same : lane.busy + lane.wends = (s.lanes w).busy + (s.lanes w).wends)
    (counter : atomicI = some (fetched' % 2 ^ 64))
    (bound : fetched' + (s.lanes w).wends ≤
      a.size + (a.received + total Lane.wends nw s.lanes + lane.wends))
    (done : a.size ≤ fetched' ∨ lane.wends = (s.lanes w).wends ∧ fetched ≤ fetched')
    (fetches : pieces a.fn 0 (min fetched' a.size) = pieces a.fn 0 (min fetched a.size) + more)
    (accounts : (called : Multiset (Nat × Nat)) + lane.left =
      s.called + (s.lanes w).left + more) :
    AtomicInv nw { s with lanes := Function.update s.lanes w lane, called, atomicI } a r old
      fetched' := by
  have busy' := total_update Lane.busy s.lanes lane (inside.trans_le inv.next_le)
  have wends' := total_update Lane.wends s.lanes lane (inside.trans_le inv.next_le)
  exact
    { history := ⟨inv.history.requests_eq, inv.history.fn_eq, inv.history.answered_eq,
        inv.history.ordered⟩
      size_eq := inv.size_eq
      start_eq := inv.start_eq
      room := inv.room
      atomicI_eq := counter
      fetched_le := by
        dsimp only
        omega
      next_le := inv.next_le
      received_lt := inv.received_lt
      beyond := by
        intro other beyond
        dsimp only
        rw [Function.update_of_ne (by omega)]
        exact inv.beyond other beyond
      counts := by
        intro other
        dsimp only
        rw [Function.update_apply]
        split
        · exact counts
        · exact inv.counts other
      received_eq := by
        have received := inv.received_eq
        dsimp only
        omega
      done := by
        intro some
        dsimp only at some
        rcases done with done | ⟨wends, grows⟩
        · exact done
        · exact (inv.done (by omega)).trans grows
      accounts_eq := by
        rw [fetches, ← add_assoc, ← inv.accounts_eq]
        exact accounts_update (inside.trans_le inv.next_le) accounts }

end AtomicInv

end P3arsec.Raytrace.OnDemand
