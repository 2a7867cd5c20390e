import P3arsec.Fastflow.OrderedFarm
import P3arsec.Lib.Descent
import P3arsec.Lib.RoundRobin
import P3arsec.Lib.Run

/-!
# The ordered farm keeps the order

The messages of a run are the tasks and then one end of the stream for each worker. Both the emitter
and the collector take the workers in turn, also at the end, so position `p` of this stream passes
through worker `(first + p) % running`, and the collector finds it when it has all before it. A
worker is dead only when the end of the stream has come through it, behind all its tasks.
-/

namespace P3arsec.Fastflow

open P3arsec.Lib P3arsec.Lib.RoundRobin

variable {α β σ : Type*}

/-- What is on its way through a worker. -/
inductive OfarmItem (α β : Type*) where
  /-- A message of the emitter. -/
  | input (message : Option α)
  /-- A message for the collector. -/
  | output (message : Option β)

/-- An item stands for a position of the stream. -/
def OfarmItem.At (whole : List α) (results : Nat → Option β) : OfarmItem α β → Nat → Prop
  | .input message, p => message = whole[p]? ∧ results p = none
  | .output none, p => whole[p]? = none
  | .output (some result), p => p < whole.length ∧ results p = some result

/-- What a worker has taken from its queue and not passed on. -/
def OfarmWorker.items : OfarmWorker α β → List (OfarmItem α β)
  | .waiting | .done => []
  | .working task => [.input (some task)]
  | .pushing message => [.output message]

/-- How many steps a worker has before its message is passed on. -/
def OfarmWorker.steps : OfarmWorker α β → Nat
  | .waiting | .done => 0
  | .working _ => 3
  | .pushing _ => 2

/-- The end of the stream is sent to the workers in turn. -/
theorem broadcastOrder_eq {first n running : Nat} (positive : 0 < running) :
    broadcastOrder ((first + n) % running) running =
      (List.range' n running).map fun p => (first + p) % running := by
  have below := Nat.mod_lt (first + n) positive
  unfold broadcastOrder
  refine List.ext_getElem (by simp; omega) fun j _ inside => ?_
  rw [List.length_map, List.length_range'] at inside
  have turn : (first + (n + j)) % running = ((first + n) % running + j) % running := by
    rw [Nat.mod_add_mod, Nat.add_assoc]
  simp only [List.getElem_map, List.getElem_range', one_mul]
  rw [turn]
  generalize (first + n) % running = victim at *
  by_cases before : j < running - victim
  · have ahead : victim + j < running := by omega
    rw [List.getElem_append_left (by simpa using before), List.getElem_range', one_mul,
      Nat.mod_eq_of_lt ahead]
  · have around : victim + j - running < running := by omega
    rw [List.getElem_append_right (by simp; omega), List.getElem_range, List.length_range',
      Nat.mod_eq_sub_mod (by omega), Nat.mod_eq_of_lt around]
    omega

/-- The emitter has sent `k` messages. -/
def OfarmE.Sent (running : Nat) (whole : List α) (first k : Nat) (e : OfarmE α) : Prop :=
  match e.ending with
  | none => k ≤ whole.length ∧ e.tasks = whole.drop k ∧ e.nextone = (first + k) % running
  | some rest => whole.length ≤ k ∧ k ≤ whole.length + running ∧ e.tasks = [] ∧
      e.nextone = (first + whole.length) % running ∧
      rest = (List.range' k (whole.length + running - k)).map fun p => (first + p) % running

/-- The collector has got `c` messages, and `n` of the stream are tasks. -/
structure OfarmC.Got (running n : Nat) (results : Nat → Option β) (first c : Nat) (C : OfarmC β) :
    Prop where
  nextone : C.nextone = (first + c) % running
  victim : c < n + running → C.victim = C.nextone
  /-- The end of the stream has come from the workers that are dead. -/
  dead : ∀ i, C.dead i = true ↔ ∃ p, n ≤ p ∧ p < c ∧ (first + p) % running = i
  neos : C.neos = c - n
  count : C.collected.length = min c n
  results : ∀ j result, C.collected[j]? = some result → results j = some result

/-- A turn of the collector collects nothing. -/
theorem OfarmC.turn_collected (running fuel : Nat) (C : OfarmC β) :
    (turn running fuel C).collected = C.collected := by
  induction fuel generalizing C with
  | zero => rfl
  | succ fuel ih =>
    by_cases gone : C.dead ((C.nextone + 1) % running) = true
    · simp only [turn, setVictim, gone, if_true]
      exact ih _
    · simp only [turn, setVictim, gone, Bool.false_eq_true, if_false]

/-- A result is collected. -/
theorem OfarmC.svc_collected (running : Nat) (C : OfarmC β) (result : β) :
    (C.svc running result).collected = C.collected ++ [result] :=
  turn_collected running running _

/-- The end of the stream is not collected. -/
theorem OfarmC.eosnotify_collected (running id : Nat) (C : OfarmC β) :
    (C.eosnotify running id).collected = C.collected := by
  simp only [eosnotify, setVictim]
  split_ifs <;> rfl

namespace OfarmC.Got

variable {running n : Nat} {results : Nat → Option β} {first c : Nat} {C : OfarmC β}

/-- As long as tasks are to come no worker is dead. -/
theorem alive (known : C.Got running n results first c) (inside : c ≤ n) (i : Nat) :
    C.dead i = false := by
  by_contra now
  obtain ⟨p, past, before, -⟩ := (known.dead i).mp (by simpa using now)
  omega

/-- The collector gets a result and turns to the next worker. -/
theorem svc {result : β} (known : C.Got running n results first c) (positive : 0 < running)
    (inside : c < n) (here : results c = some result) :
    (C.svc running result).Got running n results first (c + 1) := by
  obtain ⟨fuel, rfl⟩ := Nat.exists_eq_succ_of_ne_zero positive.ne'
  have next := @next_lane fuel.succ first c
  have turned : C.svc fuel.succ result = { C with
      nextone := (first + (c + 1)) % fuel.succ
      victim := (first + (c + 1)) % fuel.succ
      collected := C.collected ++ [result] } := by
    simp only [OfarmC.svc, turn, setVictim, known.nextone, next, known.alive inside.le,
      Bool.false_eq_true, if_false]
  have count : C.collected.length = c := by rw [known.count, Nat.min_eq_left inside.le]
  rw [turned]
  refine {
    nextone := rfl
    victim := fun _ => rfl
    dead := fun i => ?_
    neos := ?_
    count := ?_
    results := fun j got at_j => ?_ }
  · rw [known.alive inside.le i]
    simp only [Bool.false_eq_true, false_iff]
    rintro ⟨p, past, before, -⟩
    omega
  · have := known.neos
    simp only [this]
    omega
  · simp only [List.length_append, List.length_singleton, count]
    omega
  · rcases Nat.lt_trichotomy j c with old | rfl | later
    · rw [List.getElem?_append_left (by omega)] at at_j
      exact known.results j got at_j
    · rw [List.getElem?_append_right (by omega), count, Nat.sub_self] at at_j
      obtain rfl := Option.some.inj at_j
      exact here
    · rw [List.getElem?_eq_none (by simp; omega)] at at_j
      cases at_j

/-- The collector gets the end of the stream from its victim and turns to the next worker. -/
theorem eosnotify (known : C.Got running n results first c) (past : n ≤ c)
    (more : c < n + running) :
    (C.eosnotify running C.victim).Got running n results first (c + 1) := by
  have next := @next_lane running first c
  have victim := known.victim more
  have dead : ∀ i, Function.update C.dead C.nextone true i = true ↔
      ∃ p, n ≤ p ∧ p < c + 1 ∧ (first + p) % running = i := fun i => by
    by_cases same : i = C.nextone
    · rw [same, Function.update_self]
      exact iff_of_true rfl ⟨c, past, Nat.lt_succ_self c, known.nextone.symm⟩
    · rw [Function.update_of_ne same, known.dead]
      refine ⟨fun ⟨p, ending, before, lane⟩ => ⟨p, ending, by omega, lane⟩,
        fun ⟨p, ending, before, lane⟩ => ⟨p, ending, ?_, lane⟩⟩
      have other : p ≠ c := by
        rintro rfl
        exact same (lane.symm.trans known.nextone.symm)
      omega
  have neos : C.neos + 1 = c + 1 - n := by
    have := known.neos
    omega
  have count : C.collected.length = min (c + 1) n := by
    rw [known.count]
    omega
  simp only [OfarmC.eosnotify, victim, if_true, setVictim, known.nextone, next]
  rw [← known.nextone]
  split_ifs with gone
  · -- The next worker is dead only where the whole stream has come.
    refine ⟨rfl, fun unfinished => ?_, dead, neos, count, known.results⟩
    obtain ⟨p, ending, before, lane⟩ := (dead _).mp gone
    have := apart before lane
    omega
  · exact ⟨rfl, fun _ => rfl, dead, neos, count, known.results⟩

end OfarmC.Got

/-- A result is one that the worker of the task has given for it. -/
theorem InOrder.given {gives : Nat → σ → α → β → σ → Prop} {worker : Nat → Nat}
    {tasks : List α} {state : Nat → σ} {a : InOrder β σ}
    (reached : Reachable (· = .start state) (InOrder.Step gives worker tasks) a) (j : Nat)
    (result : β) (here : a.results j = some result) :
    ∃ task s next, tasks[j]? = some task ∧ gives (worker j) s task result next := by
  induction reached generalizing result with
  | start begins =>
    subst begins
    cases here
  | step _ moves ih =>
    cases moves with
    | @serve i task served next given _ _ result_of =>
      by_cases same : j = i
      · subst same
        obtain rfl : served = result := by simpa using here
        exact ⟨task, _, next, given, result_of⟩
      · simp only [Function.update_of_ne same] at here
        exact ih result here
    | collect _ => exact ih result here

namespace Ofarm

/-- All that is on its way through a worker, the oldest first. -/
def items (f : Ofarm α β σ) (i : Nat) : List (OfarmItem α β) :=
  (f.outBuffer i).map .output ++ (f.worker i).items ++ (f.inBuffer i).map .input

/-- `k` messages are sent and `c` of them have been collected; some tasks have been served. -/
structure Passing (whole : List α) (results : Nat → Option β) (first c k : Nat)
    (f : Ofarm α β σ) : Prop where
  positive : 0 < f.running
  order : c ≤ k
  sent : f.E.Sent f.running whole first k
  got : f.C.Got f.running whole.length results first c
  unserved : ∀ p, k ≤ p → results p = none
  /-- The messages between are on their way, each through its worker. -/
  between : ∀ i, List.Forall₂ (OfarmItem.At whole results) (f.items i)
    (slots f.running first i c k)
  /-- Nothing is behind the end of the stream. -/
  stopped : ∀ i, f.worker i = .pushing none ∨ f.worker i = .done →
    f.inBuffer i = [] ∧ ∃ p, whole.length ≤ p ∧ p < k ∧ (first + p) % f.running = i
  /-- A worker that has pushed the end of the stream has stopped. -/
  closed : ∀ i, none ∈ f.outBuffer i ∨ f.C.dead i = true → f.worker i = .done

/-- The number of steps that are left, where a message still has at most five. -/
def work (f : Ofarm α β σ) : Nat :=
  5 * f.E.tasks.length + (f.E.ending.elim (5 * f.running + 1) fun rest => 5 * rest.length) +
    ∑ i ∈ Finset.range f.running, 4 * (f.inBuffer i).length +
    ∑ i ∈ Finset.range f.running, (f.worker i).steps +
    ∑ i ∈ Finset.range f.running, (f.outBuffer i).length

/-- A message can be put into an empty queue. -/
theorem room_nil {μ : Type*} {f : Ofarm α β σ} (roomy : f.entries ≠ some 0) :
    f.room ([] : List μ) = true := by
  unfold room
  split
  · rfl
  · rename_i entries eq
    have positive : entries ≠ 0 := by
      rintro rfl
      exact roomy eq
    simpa using Nat.pos_of_ne_zero positive

/-- The farm is between two runs. -/
structure Idle (f : Ofarm α β σ) : Prop where
  positive : 0 < f.running
  /-- The emitter and the collector go on with the same worker. -/
  same : f.E.nextone = f.C.nextone
  below : f.C.nextone < f.running
  inBuffer : ∀ i, f.inBuffer i = []
  outBuffer : ∀ i, f.outBuffer i = []

namespace Passing

variable {gives : Nat → σ → α → β → σ → Prop} {whole : List α} {results : Nat → Option β}
  {first c k : Nat} {f : Ofarm α β σ}

/-- No more than the whole stream is sent. -/
theorem within (known : Passing whole results first c k f) : k ≤ whole.length + f.running := by
  have sent := known.sent
  unfold OfarmE.Sent at sent
  split at sent
  · have := sent.1
    omega
  · exact sent.2.1

/-- A worker that goes on has not pushed the end of the stream. -/
theorem closed_other {i j : Nat} (known : Passing whole results first c k f)
    (here : f.worker i ≠ .done) (now : none ∈ f.outBuffer j ∨ f.C.dead j = true) :
    j ≠ i ∧ f.worker j = .done := by
  have done := known.closed j now
  refine ⟨?_, done⟩
  rintro rfl
  exact here done

/-- The next message does not come behind the end of the stream. -/
theorem before_end (more : k < whole.length + f.running) :
    ¬∃ p, whole.length ≤ p ∧ p < k ∧ (first + p) % f.running = (first + k) % f.running := by
  rintro ⟨p, ending, before, same⟩
  have := apart before same
  omega

/-- The emitter sends the next message to its worker. -/
theorem deliver (known : Passing whole results first c k f) (more : k < whole.length + f.running)
    {e : OfarmE α} (sent : e.Sent f.running whole first (k + 1)) :
    Passing whole results first c (k + 1) { f with
      E := e
      inBuffer := Function.update f.inBuffer ((first + k) % f.running)
        (f.inBuffer ((first + k) % f.running) ++ [whole[k]?]) } where
  positive := known.positive
  order := Nat.le_succ_of_le known.order
  sent := sent
  got := known.got
  unserved p past := known.unserved p (Nat.le_of_succ_le past)
  between i := by
    unfold items
    by_cases same : (first + k) % f.running = i
    · subst same
      simp only [Function.update_self, List.map_append, List.map_cons, List.map_nil]
      rw [slots_deal known.order rfl, ← List.append_assoc]
      exact List.rel_append (known.between _) (.cons ⟨rfl, known.unserved k le_rfl⟩ .nil)
    · simp only [Function.update_of_ne (Ne.symm same)]
      rw [slots_deal_other known.order same]
      exact known.between i
  stopped i here := by
    obtain ⟨empty, p, ending, before, lane⟩ := known.stopped i here
    have other : i ≠ (first + k) % f.running := by
      rintro rfl
      exact before_end more ⟨p, ending, before, lane⟩
    simp only [Function.update_of_ne other]
    exact ⟨empty, p, ending, Nat.lt_succ_of_lt before, lane⟩
  closed := known.closed

/-- `Step.send`. -/
theorem send {task : α} {tasks : List α} (known : Passing whole results first c k f)
    (going : f.E.ending = none) (head : f.E.tasks = task :: tasks) :
    Passing whole results first c (k + 1) { f with
      E := { f.E with nextone := (f.E.nextone + 1) % f.running, tasks := tasks }
      inBuffer := Function.update f.inBuffer f.E.nextone
        (f.inBuffer f.E.nextone ++ [some task]) } := by
  have sent := known.sent
  simp only [OfarmE.Sent, going] at sent
  obtain ⟨-, left, turn⟩ := sent
  rw [head] at left
  have here : whole[k]? = some task := by
    rw [← List.head?_drop, ← left, List.head?_cons]
  have inside : k < whole.length := (List.getElem?_eq_some_iff.mp here).1
  rw [turn, ← here]
  refine known.deliver (by omega) ?_
  simp only [OfarmE.Sent, going]
  exact ⟨inside, by rw [← List.tail_drop, ← left, List.tail_cons], next_lane k⟩

/-- `Step.finish`. -/
theorem finish (known : Passing whole results first c k f) (going : f.E.ending = none)
    (none_left : f.E.tasks = []) :
    Passing whole results first c k { f with
      E := { f.E with ending := some (broadcastOrder f.E.nextone f.running) } } := by
  have sent := known.sent
  simp only [OfarmE.Sent, going] at sent
  obtain ⟨most, left, turn⟩ := sent
  rw [none_left] at left
  have all : k = whole.length := le_antisymm most (List.drop_eq_nil_iff.mp left.symm)
  subst all
  refine { known with sent := ?_ }
  simp only [OfarmE.Sent]
  refine ⟨le_rfl, by omega, none_left, turn, ?_⟩
  rw [turn, broadcastOrder_eq known.positive, Nat.add_sub_cancel_left]

/-- `Step.pushEos`. -/
theorem pushEos {i : Nat} {rest : List Nat} (known : Passing whole results first c k f)
    (ending : f.E.ending = some (i :: rest)) :
    Passing whole results first c (k + 1) { f with
      E := { f.E with ending := some rest }
      inBuffer := Function.update f.inBuffer i (f.inBuffer i ++ [none]) } := by
  have sent := known.sent
  simp only [OfarmE.Sent, ending] at sent
  obtain ⟨past, most, none_left, turn, left⟩ := sent
  have more : k < whole.length + f.running := by
    by_contra all
    have none : whole.length + f.running - k = 0 := by omega
    rw [none] at left
    cases left
  have succ : whole.length + f.running - k = (whole.length + f.running - (k + 1)) + 1 := by omega
  rw [succ, List.range'_succ, List.map_cons, List.cons.injEq] at left
  obtain ⟨rfl, rest_eq⟩ := left
  have here : whole[k]? = none := List.getElem?_eq_none past
  rw [← here]
  refine known.deliver more ?_
  simp only [OfarmE.Sent]
  exact ⟨by omega, more, none_left, turn, rest_eq⟩

/-- `Step.pop`. -/
theorem pop {i : Nat} {message : Option α} {rest : List (Option α)}
    (known : Passing whole results first c k f) (here : f.worker i = .waiting)
    (head : f.inBuffer i = message :: rest) :
    Passing whole results first c k { f with
      inBuffer := Function.update f.inBuffer i rest
      worker := Function.update f.worker i
        (message.elim (.pushing none) fun task => .working task) } := by
  have at_i := known.between i
  simp only [items, here, head, OfarmWorker.items, List.append_nil, List.map_cons] at at_i
  refine { known with
    between := fun j => ?_
    stopped := fun j now => ?_
    closed := fun j now => ?_ }
  · by_cases same : j = i
    · subst same
      simp only [items, Function.update_self]
      cases message with
      | none =>
        simp only [Option.elim_none, OfarmWorker.items, List.append_assoc, List.singleton_append]
        exact replace at_i fun p eos => eos.1.symm
      | some task =>
        simpa only [Option.elim_some, OfarmWorker.items, List.append_assoc,
          List.singleton_append] using at_i
    · simp only [items, Function.update_of_ne same]
      exact known.between j
  · by_cases same : j = i
    · subst same
      simp only [Function.update_self] at now ⊢
      cases message with
      | some task => simp at now
      | none =>
        obtain ⟨old, p, new, positions, -, eos, behind⟩ := split at_i
        have member := mem_slots.mp (positions ▸ by simp : p ∈ slots f.running first j c k)
        have past : whole.length ≤ p := List.getElem?_eq_none_iff.mp eos.1.symm
        have within := known.within
        rw [slots_last positions (by omega)] at behind
        exact ⟨List.map_eq_nil_iff.mp (List.forall₂_nil_right_iff.mp behind),
          p, past, member.2.1, member.2.2⟩
    · simp only [Function.update_of_ne same] at now ⊢
      exact known.stopped j now
  · have busy : f.worker i ≠ .done := by simp [here]
    have other := known.closed_other busy now
    simp only [Function.update_of_ne other.1]
    exact other.2

/-- What has been taken has been served. -/
theorem served (known : Passing whole results first c k f) {p : Nat} (before : p < c)
    (inside : p < whole.length) : (results p).isSome = true := by
  have count := known.got.count
  have there : p < f.C.collected.length := by omega
  rw [known.got.results p _ (List.getElem?_eq_getElem there)]
  rfl

/-- A worker that has a task has served all its earlier ones. -/
theorem serving {i : Nat} {task : α} (known : Passing whole results first c k f)
    (here : f.worker i = .working task) :
    ∃ old p new, slots f.running first i c k = old ++ p :: new ∧
      List.Forall₂ (OfarmItem.At whole results) ((f.outBuffer i).map .output) old ∧
      List.Forall₂ (OfarmItem.At whole results) ((f.inBuffer i).map .input) new ∧
      whole[p]? = some task ∧ results p = none ∧ p < k ∧ (first + p) % f.running = i ∧
      ∀ q < p, (first + q) % f.running = i → (results q).isSome = true := by
  have at_i := known.between i
  simp only [items, here, OfarmWorker.items, List.append_assoc, List.singleton_append] at at_i
  obtain ⟨old, p, new, positions, out, ⟨given, ready⟩, inp⟩ := split at_i
  have ordered := @slots_ordered f.running first i c k
  rw [positions, List.pairwise_append] at ordered
  have later : ∀ q ∈ new, p < q := (List.pairwise_cons.mp ordered.2.1).1
  have member := mem_slots.mp (positions ▸ by simp : p ∈ slots f.running first i c k)
  have inside : p < whole.length := (List.getElem?_eq_some_iff.mp given.symm).1
  refine ⟨old, p, new, positions, out, inp, given.symm, ready, member.2.1, member.2.2,
    fun q before lane => ?_⟩
  by_cases taken : q < c
  · exact known.served taken (by omega)
  · have member' := mem_slots.mpr ⟨Nat.le_of_not_lt taken, before.trans member.2.1, lane⟩
    rw [positions, List.mem_append, List.mem_cons] at member'
    have mine : q ∈ old := by
      rcases member' with mine | rfl | behind
      · exact mine
      · exact absurd before (lt_irrefl q)
      · exact absurd (later q behind) (Nat.not_lt.mpr before.le)
    obtain ⟨item, item_mem, holds⟩ := exists_of_mem out mine
    obtain ⟨message, message_mem, rfl⟩ := List.mem_map.mp item_mem
    cases message with
    | some result => rw [holds.2]; rfl
    | none =>
      have busy : f.worker i ≠ .done := by simp [here]
      exact absurd rfl (known.closed_other busy (.inl message_mem)).1

/-- `Step.svc`, where `p` is the position of the task that the worker has. -/
theorem svc {i : Nat} {task : α} {result : β} {next : σ}
    (known : Passing whole results first c k f) (here : f.worker i = .working task) :
    ∃ p, whole[p]? = some task ∧ results p = none ∧ (first + p) % f.running = i ∧
      (∀ q < p, (first + q) % f.running = i → (results q).isSome = true) ∧
      Passing whole (Function.update results p (some result)) first c k { f with
        worker := Function.update f.worker i (.pushing (some result))
        state := Function.update f.state i next } := by
  obtain ⟨old, p, new, positions, out, inp, given, ready, sent, lane, earlier⟩ :=
    known.serving here
  have ordered := @slots_ordered f.running first i c k
  rw [positions, List.pairwise_append] at ordered
  have before : ∀ q ∈ old, q < p := fun q member => ordered.2.2 q member p List.mem_cons_self
  have behind : ∀ q ∈ new, p < q := (List.pairwise_cons.mp ordered.2.1).1
  have inside : p < whole.length := (List.getElem?_eq_some_iff.mp given).1
  -- The items of other positions are as before.
  have others : ∀ {q : Nat}, q ≠ p → ∀ item : OfarmItem α β, item.At whole results q →
      item.At whole (Function.update results p (some result)) q := fun other item holds => by
    match item with
    | .input message => exact ⟨holds.1, by rw [Function.update_of_ne other]; exact holds.2⟩
    | .output none => exact holds
    | .output (some _) => exact ⟨holds.1, by rw [Function.update_of_ne other]; exact holds.2⟩
  refine ⟨p, given, ready, lane, earlier, { known with
    got := { known.got with results := fun j got at_j => ?_ }
    unserved := fun q past => ?_
    between := fun j => ?_
    stopped := fun j now => ?_
    closed := fun j now => ?_ }⟩
  · have old_result := known.got.results j got at_j
    have other : j ≠ p := by
      rintro rfl
      rw [ready] at old_result
      cases old_result
    rw [Function.update_of_ne other]
    exact old_result
  · have other : q ≠ p := by
      rintro rfl
      exact absurd sent (Nat.not_lt.mpr past)
    rw [Function.update_of_ne other]
    exact known.unserved q past
  · by_cases same : j = i
    · subst same
      simp only [items, Function.update_self, OfarmWorker.items, List.append_assoc,
        List.singleton_append]
      rw [positions]
      exact List.rel_append (keep out fun q member => others (before q member).ne)
        (.cons ⟨inside, Function.update_self ..⟩
          (keep inp fun q member => others (behind q member).ne'))
    · simp only [items, Function.update_of_ne same]
      refine keep (known.between j) fun q member => others ?_
      rintro rfl
      exact same ((mem_slots.mp member).2.2.symm.trans lane)
  · by_cases same : j = i
    · subst same
      simp at now
    · simp only [Function.update_of_ne same] at now
      exact known.stopped j now
  · have busy : f.worker i ≠ .done := by simp [here]
    have other := known.closed_other busy now
    simp only [Function.update_of_ne other.1]
    exact other.2

/-- `Step.push`. -/
theorem push {i : Nat} {message : Option β} (known : Passing whole results first c k f)
    (here : f.worker i = .pushing message) :
    Passing whole results first c k { f with
      worker := Function.update f.worker i (message.elim .done fun _ => .waiting)
      outBuffer := Function.update f.outBuffer i (f.outBuffer i ++ [message]) } := by
  refine { known with
    between := fun j => ?_
    stopped := fun j now => ?_
    closed := fun j now => ?_ }
  · have at_j := known.between j
    by_cases same : j = i
    · subst same
      have idle : (message.elim (.done : OfarmWorker α β) fun _ => .waiting).items = [] := by
        cases message <;> rfl
      simp only [items, here, OfarmWorker.items] at at_j
      simp only [items, Function.update_self, idle, List.map_append, List.map_cons, List.map_nil,
        List.append_nil]
      exact at_j
    · simp only [items, Function.update_of_ne same]
      exact at_j
  · by_cases same : j = i
    · subst same
      cases message with
      | none => exact known.stopped j (.inl here)
      | some result => simp at now
    · simp only [Function.update_of_ne same] at now
      exact known.stopped j now
  · by_cases same : j = i
    · subst same
      cases message with
      | none => simp
      | some result =>
        simp only [Function.update_self, List.mem_append, List.mem_singleton, reduceCtorEq,
          or_false] at now
        have busy : f.worker j ≠ .done := by simp [here]
        exact absurd rfl (known.closed_other busy now).1
    · simp only [Function.update_of_ne same] at now ⊢
      exact known.closed j now

/-- The victim of the collector has the next message. -/
theorem next_message {message : Option β} {rest : List (Option β)}
    (known : Passing whole results first c k f) (going : f.C.neos < f.running)
    (head : f.outBuffer f.C.victim = message :: rest) :
    c < k ∧ f.C.victim = (first + c) % f.running ∧
      OfarmItem.At whole results (.output message) c ∧
      ∀ i, List.Forall₂ (OfarmItem.At whole results)
        ({ f with outBuffer := Function.update f.outBuffer f.C.victim rest }.items i)
        (slots f.running first i (c + 1) k) := by
  have neos := known.got.neos
  have victim : f.C.victim = (first + c) % f.running :=
    (known.got.victim (by omega)).trans known.got.nextone
  rw [victim] at head ⊢
  have at_victim := known.between ((first + c) % f.running)
  simp only [items, head, List.map_cons, List.cons_append] at at_victim
  have before : c < k := by
    refine lt_of_le_of_ne known.order fun all => ?_
    rw [all, slots_self] at at_victim
    cases at_victim
  rw [slots_take before rfl] at at_victim
  cases at_victim with
  | cons here behind =>
    refine ⟨before, rfl, here, fun i => ?_⟩
    by_cases same : i = (first + c) % f.running
    · subst same
      simp only [items, Function.update_self]
      exact behind
    · simp only [items, Function.update_of_ne same]
      rw [← slots_take_other (Ne.symm same)]
      exact known.between i

/-- What the collector takes is not on its way any more. -/
theorem collect {message : Option β} {rest : List (Option β)} {C : OfarmC β}
    (known : Passing whole results first c k f) (going : f.C.neos < f.running)
    (head : f.outBuffer f.C.victim = message :: rest)
    (got : C.Got f.running whole.length results first (c + 1))
    (dead : ∀ i, C.dead i = true → f.worker i = .done) :
    Passing whole results first (c + 1) k
      { f with outBuffer := Function.update f.outBuffer f.C.victim rest, C := C } := by
  obtain ⟨before, -, -, between⟩ := known.next_message going head
  refine { known with order := before, got := got, between := between, closed := fun i now => ?_ }
  rcases now with member | gone
  · refine known.closed i (.inl ?_)
    by_cases same : i = f.C.victim
    · subst same
      simp only [Function.update_self] at member
      rw [head]
      exact List.mem_cons_of_mem _ member
    · simpa only [Function.update_of_ne same] using member
  · exact dead i gone

/-- `Step.gather`. -/
theorem gather {result : β} {rest : List (Option β)} (known : Passing whole results first c k f)
    (going : f.C.neos < f.running) (head : f.outBuffer f.C.victim = some result :: rest) :
    Passing whole results first (c + 1) k { f with
      outBuffer := Function.update f.outBuffer f.C.victim rest
      C := f.C.svc f.running result } := by
  obtain ⟨-, -, ⟨inside, here⟩, -⟩ := known.next_message going head
  have got := known.got.svc known.positive inside here
  refine known.collect going head got fun i gone => ?_
  rw [got.alive inside i] at gone
  cases gone

/-- `Step.gatherEos`. -/
theorem gatherEos {rest : List (Option β)} (known : Passing whole results first c k f)
    (going : f.C.neos < f.running) (head : f.outBuffer f.C.victim = none :: rest) :
    Passing whole results first (c + 1) k { f with
      outBuffer := Function.update f.outBuffer f.C.victim rest
      C := f.C.eosnotify f.running f.C.victim } := by
  obtain ⟨-, victim, eos, -⟩ := known.next_message going head
  have past : whole.length ≤ c := List.getElem?_eq_none_iff.mp eos
  have neos := known.got.neos
  have got := known.got.eosnotify past (by omega)
  refine known.collect going head got fun i gone => ?_
  obtain ⟨p, ending, before, lane⟩ := (got.dead i).mp gone
  by_cases last : p = c
  · subst last
    rw [← lane, ← victim]
    exact known.closed _ (.inl (by rw [head]; exact List.mem_cons_self))
  · exact known.closed i (.inr ((known.got.dead i).mpr ⟨p, ending, by omega, lane⟩))

/-- Every step keeps the order of the stream; it changes nothing that is seen, or is a step of the
farm that is in order. -/
theorem step {g : Ofarm α β σ} (known : Passing whole results first c k f)
    (moves : Step gives f g) : ∃ c' k' results', Passing whole results' first c' k' g ∧
      (g.seen results' = f.seen results ∨ InOrder.Step gives (fun j => (first + j) % f.running)
        whole (f.seen results) (g.seen results')) := by
  cases moves with
  | send going head _ => exact ⟨_, _, _, known.send going head, .inl rfl⟩
  | finish going none_left => exact ⟨_, _, _, known.finish going none_left, .inl rfl⟩
  | pushEos ending _ => exact ⟨_, _, _, known.pushEos ending, .inl rfl⟩
  | pop here head => exact ⟨_, _, _, known.pop here head, .inl rfl⟩
  | push here _ => exact ⟨_, _, _, known.push here, .inl rfl⟩
  | svc here result_of =>
    obtain ⟨p, given, ready, rfl, earlier, known⟩ := known.svc here
    exact ⟨_, _, _, known, .inr (.serve given ready earlier result_of)⟩
  | @gather result rest going head =>
    obtain ⟨-, -, ⟨inside, here⟩, -⟩ := known.next_message going head
    have count : f.C.collected.length = c := by rw [known.got.count, Nat.min_eq_left inside.le]
    refine ⟨_, _, _, known.gather going head, .inr ?_⟩
    have collects : InOrder.Step gives (fun j => (first + j) % f.running) whole (f.seen results)
        { f.seen results with collected := f.C.collected ++ [result] } :=
      .collect (by simpa only [seen, count] using here)
    simpa only [seen, OfarmC.svc_collected] using collects
  | gatherEos going head =>
    refine ⟨_, _, _, known.gatherEos going head, .inl ?_⟩
    simp only [seen, OfarmC.eosnotify_collected]

/-- Only the workers of the farm have something. -/
theorem inside {i : Nat} (known : Passing whole results first c k f) (some_item : f.items i ≠ []) :
    i < f.running := by
  have at_i := known.between i
  cases positions : slots f.running first i c k with
  | nil =>
    rw [positions] at at_i
    exact absurd (List.forall₂_nil_right_iff.mp at_i) some_item
  | cons p rest =>
    have member := mem_slots.mp (positions ▸ List.mem_cons_self : p ∈ slots f.running first i c k)
    rw [← member.2.2]
    exact Nat.mod_lt _ known.positive

/-- The emitter turns to a worker of the farm. -/
theorem nextone_lt (known : Passing whole results first c k f) : f.E.nextone < f.running := by
  have sent := known.sent
  unfold OfarmE.Sent at sent
  split at sent
  · rw [sent.2.2]
    exact Nat.mod_lt _ known.positive
  · rw [sent.2.2.2.1]
    exact Nat.mod_lt _ known.positive

/-- Every step brings the run closer to its end. -/
theorem decreases {g : Ofarm α β σ} (known : Passing whole results first c k f)
    (moves : Step gives f g) : g.work < f.work := by
  cases moves with
  | @send task tasks going head _ =>
    have sum := sum_update_add (fun buffer => 4 * buffer.length) f.inBuffer
      (f.inBuffer f.E.nextone ++ [some task]) known.nextone_lt
    simp only [List.length_append, List.length_singleton] at sum
    simp only [work, going, head, List.length_cons, Option.elim_none]
    omega
  | finish going none_left =>
    have order : (broadcastOrder f.E.nextone f.running).length = f.running := by
      have := known.nextone_lt
      simp only [broadcastOrder, List.length_append, List.length_range', List.length_range]
      omega
    simp only [work, going, none_left, Option.elim_none, Option.elim_some, order]
    omega
  | @pushEos i rest ending _ =>
    have sent := known.sent
    simp only [OfarmE.Sent, ending] at sent
    have member : i ∈ i :: rest := List.mem_cons_self
    rw [sent.2.2.2.2] at member
    obtain ⟨p, -, rfl⟩ := List.mem_map.mp member
    have sum := sum_update_add (fun buffer => 4 * buffer.length) f.inBuffer
      (f.inBuffer ((first + p) % f.running) ++ [none]) (Nat.mod_lt (first + p) known.positive)
    simp only [List.length_append, List.length_singleton] at sum
    simp only [work, ending, List.length_cons, Option.elim_some]
    omega
  | @pop i message rest here head =>
    have inside : i < f.running := known.inside (by simp [items, head])
    have buffers := sum_update_add (fun buffer => 4 * buffer.length) f.inBuffer rest inside
    have workers := sum_update_add OfarmWorker.steps f.worker
      (message.elim (.pushing none) fun task => .working task) inside
    have was : (f.worker i).steps = 0 := by rw [here]; rfl
    have most : (message.elim (.pushing none) fun task => .working task :
        OfarmWorker α β).steps ≤ 3 := by
      cases message <;> simp [OfarmWorker.steps]
    simp only [head, List.length_cons] at buffers
    simp only [work]
    omega
  | @svc i task result next here _ =>
    have workers := sum_update_add OfarmWorker.steps f.worker (.pushing (some result))
      (known.inside (i := i) (by simp [items, here, OfarmWorker.items]))
    have was : (f.worker i).steps = 3 := by rw [here]; rfl
    have now : (OfarmWorker.pushing (some result) : OfarmWorker α β).steps = 2 := rfl
    simp only [work]
    omega
  | @push i message here _ =>
    have inside : i < f.running := known.inside (by simp [items, here, OfarmWorker.items])
    have workers := sum_update_add OfarmWorker.steps f.worker
      (message.elim .done fun _ => .waiting) inside
    have buffers := sum_update_add List.length f.outBuffer (f.outBuffer i ++ [message]) inside
    have idle : (message.elim .done fun _ => .waiting : OfarmWorker α β).steps = 0 := by
      cases message <;> rfl
    have was : (f.worker i).steps = 2 := by rw [here]; rfl
    simp only [List.length_append, List.length_singleton] at buffers
    simp only [work]
    omega
  | @gather result rest _ head =>
    have buffers := sum_update_add List.length f.outBuffer rest
      (known.inside (i := f.C.victim) (by simp [items, head]))
    simp only [head, List.length_cons] at buffers
    simp only [work]
    omega
  | @gatherEos rest _ head =>
    have buffers := sum_update_add List.length f.outBuffer rest
      (known.inside (i := f.C.victim) (by simp [items, head]))
    simp only [head, List.length_cons] at buffers
    simp only [work]
    omega

/-- Until the collector has ended, a step is possible. -/
theorem progress (known : Passing whole results first c k f)
    (total : ∀ i task, f.worker i = .working task →
      ∃ result next, gives i (f.state i) task result next) (roomy : f.entries ≠ some 0)
    (going : f.C.neos < f.running) : ∃ g, Step gives f g := by
  have neos := known.got.neos
  have victim : f.C.victim = (first + c) % f.running :=
    (known.got.victim (by omega)).trans known.got.nextone
  by_cases before : c < k
  · -- The worker of the next message can go on.
    have at_victim := known.between f.C.victim
    rw [slots_take before victim.symm] at at_victim
    cases out : f.outBuffer f.C.victim with
    | cons message rest =>
      cases message with
      | some result => exact ⟨_, .gather going out⟩
      | none => exact ⟨_, .gatherEos going out⟩
    | nil =>
      cases here : f.worker f.C.victim with
      | working task =>
        obtain ⟨result, next, result_of⟩ := total f.C.victim task here
        exact ⟨_, .svc here result_of⟩
      | pushing message => exact ⟨_, .push here (by rw [out]; exact room_nil roomy)⟩
      | waiting =>
        cases inp : f.inBuffer f.C.victim with
        | cons message rest => exact ⟨_, .pop here inp⟩
        | nil =>
          simp only [items, out, here, inp, OfarmWorker.items, List.map_nil, List.append_nil]
            at at_victim
          cases at_victim
      | done =>
        have inp := (known.stopped _ (.inr here)).1
        simp only [items, out, here, inp, OfarmWorker.items, List.map_nil, List.append_nil]
          at at_victim
        cases at_victim
  · -- Nothing is on its way, and the emitter has something to send.
    have all : c = k := le_antisymm known.order (Nat.le_of_not_lt before)
    have empty : ∀ i, f.inBuffer i = [] := fun i => by
      have at_i := known.between i
      rw [all, slots_self, List.forall₂_nil_right_iff] at at_i
      exact List.map_eq_nil_iff.mp (List.append_eq_nil_iff.mp at_i).2
    have sent := known.sent
    cases ending : f.E.ending with
    | none =>
      cases tasks : f.E.tasks with
      | nil => exact ⟨_, .finish ending tasks⟩
      | cons task rest =>
        exact ⟨_, .send ending tasks (by rw [empty]; exact room_nil roomy)⟩
    | some left =>
      simp only [OfarmE.Sent, ending] at sent
      obtain ⟨past, most, -, -, rest_eq⟩ := sent
      have more : whole.length + f.running - k ≠ 0 := by omega
      cases left with
      | nil =>
        have count := congrArg List.length rest_eq
        simp only [List.length_nil, List.length_map, List.length_range'] at count
        exact absurd count.symm more
      | cons i rest => exact ⟨_, .pushEos ending (by rw [empty]; exact room_nil roomy)⟩

/-- When the collector has ended, everything has been sent and collected. -/
theorem all_collected (known : Passing whole results first c k f) (ended : f.C.neos = f.running) :
    c = whole.length + f.running ∧ k = whole.length + f.running := by
  have neos := known.got.neos
  have positive := known.positive
  have order := known.order
  have within := known.within
  omega

/-- A run begins. -/
theorem start (idle : Idle f) (whole : List α) :
    Passing whole (fun _ => none) f.C.nextone 0 0 (f.svcInit whole) where
  positive := idle.positive
  order := le_rfl
  sent := by
    simp only [OfarmE.Sent, svcInit, List.drop_zero, Nat.add_zero]
    exact ⟨Nat.zero_le _, trivial, idle.same.trans (Nat.mod_eq_of_lt idle.below).symm⟩
  got := {
    nextone := (Nat.mod_eq_of_lt idle.below).symm
    victim := fun _ => rfl
    dead := fun i => by simp [svcInit]
    neos := (Nat.zero_sub _).symm
    count := (Nat.zero_min _).symm
    results := fun j result at_j => by cases at_j }
  unserved _ _ := rfl
  between i := by
    simp only [items, svcInit, idle.inBuffer, idle.outBuffer, OfarmWorker.items, slots_self,
      List.map_nil, List.append_nil]
    exact .nil
  stopped i now := by simp [svcInit] at now
  closed i now := by simp [svcInit, idle.outBuffer] at now

/-- A run ends. -/
theorem idle (known : Passing whole results first c k f) (ended : f.C.neos = f.running) :
    Idle f := by
  obtain ⟨all, all'⟩ := known.all_collected ended
  have positive := known.positive
  have empty : ∀ i, f.items i = [] := fun i => by
    have at_i := known.between i
    rwa [all, all', slots_self, List.forall₂_nil_right_iff] at at_i
  have around : f.C.nextone = (first + whole.length) % f.running := by
    rw [known.got.nextone, all, ← Nat.add_assoc, Nat.add_mod_right]
  refine {
    positive := positive
    same := ?_
    below := by rw [around]; exact Nat.mod_lt _ positive
    inBuffer := fun i => List.map_eq_nil_iff.mp (List.append_eq_nil_iff.mp (empty i)).2
    outBuffer := fun i => List.map_eq_nil_iff.mp
      (List.append_eq_nil_iff.mp (List.append_eq_nil_iff.mp (empty i)).1).1 }
  have sent := known.sent
  unfold OfarmE.Sent at sent
  split at sent
  · have := sent.1
    omega
  · rw [around, sent.2.2.2.1]

/-- When the collector has ended all workers have stopped. -/
theorem all_stopped {i : Nat} (known : Passing whole results first c k f)
    (ended : f.C.neos = f.running) (below : i < f.running) : f.worker i = .done := by
  obtain ⟨all, -⟩ := known.all_collected ended
  refine known.closed i (.inr ((known.got.dead i).mpr ?_))
  have member : i ∈ (List.range' whole.length f.running).map fun p => (first + p) % f.running := by
    rw [← broadcastOrder_eq known.positive, broadcastOrder, List.mem_append, List.mem_range'_1,
      List.mem_range]
    omega
  obtain ⟨p, inside, lane⟩ := List.mem_map.mp member
  rw [List.mem_range'_1] at inside
  exact ⟨p, inside.1, by omega, lane⟩

end Passing

variable {gives : Nat → σ → α → β → σ → Prop} {f g : Ofarm α β σ} {tasks : List α}

/-- The workers and the size of the queues stay. -/
theorem Step.keeps (moves : Step gives f g) : g.running = f.running ∧ g.entries = f.entries := by
  cases moves <;> exact ⟨rfl, rfl⟩

/-- In every state of a run the stream is passing through the farm in order. -/
theorem run (idle : Idle f) (moves : Relation.ReflTransGen (Step gives) (f.svcInit tasks) g) :
    (∃ c k results, Passing tasks results f.C.nextone c k g ∧
      Reachable (· = .start f.state)
        (InOrder.Step gives (fun j => (f.C.nextone + j) % f.running) tasks) (g.seen results)) ∧
      g.running = f.running ∧ g.entries = f.entries := by
  induction moves with
  | refl => exact ⟨⟨0, 0, _, Passing.start idle tasks, .start rfl⟩, rfl, rfl⟩
  | tail _ last ih =>
    obtain ⟨⟨c, k, results, known, reached⟩, running, entries⟩ := ih
    have keeps := last.keeps
    refine ⟨?_, keeps.1.trans running, keeps.2.trans entries⟩
    obtain ⟨c', k', results', known', seen⟩ := known.step last
    refine ⟨c', k', results', known', ?_⟩
    rcases seen with same | moves
    · rw [same]
      exact reached
    · rw [running] at moves
      exact reached.step moves

/-- A farm between two runs is idle. -/
theorem Reached.idle (reached : Reached gives f) : Idle f := by
  induction reached with
  | make positive => exact ⟨positive, rfl, positive, fun _ => rfl, fun _ => rfl⟩
  | run _ moves ended ih =>
    obtain ⟨⟨c, k, results, known, -⟩, -⟩ := Ofarm.run ih moves
    exact known.idle ended

/-- However fast the workers are, the farm does what a farm in order does: the results come to the
collector in the order of the tasks, each from the worker whose turn it is, and no task is without
its result when the run has ended. -/
theorem ofarm_ordered (reached : Reached gives f)
    (moves : Relation.ReflTransGen (Step gives) (f.svcInit tasks) g) :
    (∃ results, Reachable (· = .start f.state)
      (InOrder.Step gives (fun j => (f.C.nextone + j) % f.running) tasks) (g.seen results)) ∧
    (∀ j result, g.C.collected[j]? = some result → ∃ task state next, tasks[j]? = some task ∧
      gives ((f.C.nextone + j) % f.running) state task result next) ∧
    (g.C.neos = g.running → g.C.collected.length = tasks.length) := by
  obtain ⟨⟨c, k, results, known, seen⟩, running, -⟩ := run reached.idle moves
  refine ⟨⟨results, seen⟩, fun j result at_j => ?_, fun ended => ?_⟩
  · exact InOrder.given seen j result (known.got.results j result at_j)
  · rw [known.got.count, (known.all_collected ended).1]
    omega

/-- Two tasks for two workers: the second one is done first, and waits for the first one. -/
theorem ofarm_two : ∃ g : Ofarm Nat Nat Unit, Relation.ReflTransGen
    (Step fun _ _ task result _ => result = 10 * task)
      ((make 2 none fun _ => ()).svcInit [1, 2]) g ∧
        g.outBuffer 1 = [some 20] ∧ g.C.collected = [10] :=
  ⟨_, .head (.send rfl rfl rfl) <| .head (.send rfl rfl rfl) <|
    .head (@Step.pop _ _ _ _ _ 1 _ _ rfl rfl) <| .head (@Step.svc _ _ _ _ _ 1 _ _ () rfl rfl) <|
    .head (@Step.push _ _ _ _ _ 1 _ rfl rfl) <| .head (@Step.pop _ _ _ _ _ 0 _ _ rfl rfl) <|
    .head (@Step.svc _ _ _ _ _ 0 _ _ () rfl rfl) <| .head (@Step.push _ _ _ _ _ 0 _ rfl rfl) <|
    .head (.gather (by decide) rfl) .refl, rfl, rfl⟩

/-- The collector has the result of the first task first. -/
theorem ofarm_ordered_two : ∃ g : Ofarm Nat Nat Unit, g.outBuffer 1 = [some 20] ∧
    ∃ task, [1, 2][0]? = some task ∧ g.C.collected = [10 * task] := by
  obtain ⟨g, moves, waits, collected⟩ := ofarm_two
  obtain ⟨task, -, -, first, result⟩ := (ofarm_ordered (.make (by decide)) moves).2.1 0 10
    (by rw [collected]; rfl)
  exact ⟨g, waits, task, first, by rw [collected, ← result]⟩

/-- A run ends, in whatever order the steps are taken: the collector has all results, all workers
have stopped, and nothing is left in the queues. -/
theorem ofarm_terminates (reached : Reached gives f) (roomy : f.entries ≠ some 0) (tasks : List α)
    (total : ∀ g, Relation.ReflTransGen (Step gives) (f.svcInit tasks) g → ∀ i task,
      g.worker i = .working task → ∃ result next, gives i (g.state i) task result next) :
    (¬∃ states : Nat → Ofarm α β σ, states 0 = f.svcInit tasks ∧
      ∀ n, Step gives (states n) (states (n + 1))) ∧
    ∀ g, Relation.ReflTransGen (Step gives) (f.svcInit tasks) g → (¬∃ g', Step gives g g') →
      g.C.neos = g.running ∧ g.C.collected.length = tasks.length ∧
        (∀ i < g.running, g.worker i = .done) ∧
          ∀ i, g.inBuffer i = [] ∧ g.outBuffer i = [] := by
  refine ⟨?_, fun g moves stuck => ?_⟩
  · refine no_infinite_descent
      (fun g => ∃ c k results, Passing tasks results f.C.nextone c k g) work
      (fun g g' known moves => ?_) ⟨0, 0, _, Passing.start reached.idle tasks⟩
    obtain ⟨c, k, results, known⟩ := known
    obtain ⟨c', k', results', known', -⟩ := known.step moves
    exact ⟨⟨c', k', results', known'⟩, known.decreases moves⟩
  · obtain ⟨⟨c, k, results, known, -⟩, -, entries⟩ := run reached.idle moves
    have ended : g.C.neos = g.running := by
      have most := known.got.neos
      have within := known.within
      have order := known.order
      by_contra unfinished
      exact stuck (known.progress (total g moves) (entries ▸ roomy) (by omega))
    have idle := known.idle ended
    refine ⟨ended, ?_, fun i below => known.all_stopped ended below,
      fun i => ⟨idle.inBuffer i, idle.outBuffer i⟩⟩
    rw [known.got.count, (known.all_collected ended).1]
    omega

/-- A farm with two workers and queues of one entry ends, and leaves three results and nothing
else. -/
theorem ofarm_terminates_two : (¬∃ states : Nat → Ofarm Nat Nat Unit,
    states 0 = (make 2 (some 1) fun _ => ()).svcInit [1, 2, 3] ∧
      ∀ n, Step (fun _ _ task result _ => result = 10 * task) (states n) (states (n + 1))) ∧
    ∀ g : Ofarm Nat Nat Unit,
      Relation.ReflTransGen (Step fun _ _ task result _ => result = 10 * task)
        ((make 2 (some 1) fun _ => ()).svcInit [1, 2, 3]) g →
      (¬∃ g', Step (fun _ _ task result _ => result = 10 * task) g g') →
      g.C.neos = g.running ∧ g.C.collected.length = 3 ∧ (∀ i < g.running, g.worker i = .done) ∧
        ∀ i, g.inBuffer i = [] ∧ g.outBuffer i = [] := by
  have reached : Reached (fun _ _ task result _ => result = 10 * task)
      (make 2 (some 1) fun _ => () : Ofarm Nat Nat Unit) := .make (by decide)
  exact ofarm_terminates reached (by simp [make]) [1, 2, 3]
    fun _ _ _ task _ => ⟨10 * task, (), rfl⟩

end Ofarm

end P3arsec.Fastflow
