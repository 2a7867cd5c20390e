import P3arsec.Lib.Chunks
import P3arsec.Lib.Marks
import P3arsec.Lib.Run

/-!
# The parallel loop on demand

The fourth version of `pfor_act` sends each worker one chunk, and a worker asks for the next one
with `wget` when it begins a chunk and reports with `wend` when it has finished it. With a grain of
one the workers take single indices from a shared counter instead. A request is served when its
chunks make up the range, and with the counter when the range starts at zero (`answers`).
-/

namespace P3arsec.Raytrace.OnDemand

open P3arsec.Lib

/-- A request for a range. -/
structure Request where
  start : Nat
  stop : Nat
  grain : Nat
  deriving DecidableEq

/-- What the master sends to a worker. `fn` is the number of the request whose `fun` is passed. -/
inductive Message where
  /-- A chunk. -/
  | chunk (start stop fn : Nat)
  /-- A size for the loop with the shared counter. -/
  | atomic (size fn : Nat)
  deriving DecidableEq

/-- What a worker sends to the master. -/
inductive Reply where
  | wget
  | wend
  deriving DecidableEq

/-- What a worker is doing. -/
inductive Hand where
  /-- The loop over a chunk, at an index. -/
  | chunk (i stop fn : Nat)
  /-- The loop with the shared counter, with the index that has been taken from it. -/
  | atomic (size fn : Nat) (i : Option Nat)
  deriving DecidableEq

/-- A worker. -/
structure Lane where
  /-- The mailbox of the worker, the oldest message first. -/
  queue : List Message := []
  /-- What the worker is doing. -/
  current : Option Hand := none
  /-- The replies that the master has not received yet, the oldest first. -/
  mail : List Reply := []
  deriving DecidableEq

/-- The master while it sends chunks. -/
structure Generic where
  fn : Nat
  stop : Nat
  chunk : Nat
  plus : Nat
  pStart : Nat
  nRes : Nat
  /-- The worker that the first loop is at. -/
  next : Nat
  deriving DecidableEq

/-- The master while the workers share the counter. -/
structure Atomic where
  fn : Nat
  size : Nat
  /-- The worker that the first loop is at. -/
  next : Nat
  /-- How many replies have been received. -/
  received : Nat
  deriving DecidableEq

/-- What the master is doing. -/
inductive Master where
  /-- It waits for a request. -/
  | idle
  | generic (g : Generic)
  | atomic (a : Atomic)
  deriving DecidableEq

/-- The state of the parallel loop. -/
structure State where
  master : Master
  lanes : Nat → Lane
  /-- `atomic_i`, while it exists. -/
  atomicI : Option Nat
  /-- The calls that have returned, each with the number of its request. -/
  called : List (Nat × Nat)
  /-- The requests that the master has taken. -/
  requests : List Request
  /-- The requests that have been answered. -/
  answered : List Nat

/-- What the parties do. -/
inductive Event where
  /-- The master takes a request. -/
  | request (r : Request)
  /-- The first loop of the master goes on. -/
  | send
  /-- A worker takes a message. -/
  | begin (w : Nat)
  /-- A worker goes on with what it is doing. -/
  | next (w : Nat)
  /-- The master receives a reply of a worker. -/
  | receive (w : Nat)

/-- The state after the workers have been spawned. The counter of the loop is an `int`. -/
def spawn (nw : Nat) : Option State :=
  if nw < 2 ^ 31 then
    some
      { master := .idle
        lanes := fun _ => {}
        atomicI := none
        called := []
        requests := []
        answered := [] }
  else none

/-- `chunk` and `plus`. -/
def division (nw nv grain : Nat) : Nat × Nat :=
  if 0 < grain ∧ grain < nv / nw then (grain, nv % grain) else (nv / nw, nv % nw)

/-- What the master does first for a request. -/
def Request.master (nw fn : Nat) (r : Request) : Master :=
  let nv := r.stop - r.start
  if r.grain = 1 then .atomic { fn, size := nv, next := 0, received := 0 }
  else
    .generic
      { fn
        stop := r.stop
        chunk := (division nw nv r.grain).1
        plus := (division nw nv r.grain).2
        pStart := r.start
        nRes := 0
        next := 0 }

/-- The end of the next chunk. -/
def Generic.pEnd (g : Generic) : Nat :=
  (g.pStart + g.chunk + if 0 < g.plus then 1 else 0) % 2 ^ 64

/-- The master after `send_chunk`. -/
def Generic.sent (g : Generic) : Generic :=
  { g with pStart := g.pEnd, plus := g.plus - 1, nRes := (g.nRes + 1) % 2 ^ 64 }

/-- A worker after a message has been sent to it. -/
def Lane.send (message : Message) (lane : Lane) : Lane :=
  { lane with queue := lane.queue ++ [message] }

/-- A worker takes a message. It asks for the next chunk at once. -/
def Lane.begin (lane : Lane) : Option Lane :=
  match lane with
  | { queue := .chunk start stop fn :: queue, current := none, mail } =>
    some { queue, current := some (.chunk start stop fn), mail := mail ++ [.wget] }
  | { queue := .atomic size fn :: queue, current := none, mail } =>
    some { queue, current := some (.atomic size fn none), mail }
  | _ => none

/-- A worker holds what it is doing next. -/
def Lane.hold (hand : Hand) (lane : Lane) : Lane := { lane with current := some hand }

/-- The replies that are left when the master has received one. -/
def Lane.keep (mail : List Reply) (lane : Lane) : Lane := { lane with mail }

/-- A worker has finished what it was doing. -/
def Lane.finish (lane : Lane) : Lane := { lane with current := none, mail := lane.mail ++ [.wend] }

/-- A worker goes on with its loop. -/
def State.next (w : Nat) (s : State) : Option State :=
  let lane := s.lanes w
  match lane.current with
  | none => none
  | some (.chunk i stop fn) =>
    if i < stop then
      some
        { s with
          lanes := Function.update s.lanes w (lane.hold (.chunk (i + 1) stop fn))
          called := s.called ++ [(fn, i)] }
    else some { s with lanes := Function.update s.lanes w lane.finish }
  | some (.atomic size fn none) =>
    s.atomicI.map fun i =>
      { s with
        atomicI := some ((i + 1) % 2 ^ 64)
        lanes := Function.update s.lanes w
          (if i < size then lane.hold (.atomic size fn (some i)) else lane.finish) }
  | some (.atomic size fn (some i)) =>
    some
      { s with
        lanes := Function.update s.lanes w (lane.hold (.atomic size fn none))
        called := s.called ++ [(fn, i)] }

/-- The master receives a reply of a worker. It takes `wend` only while the counter exists, and the
oldest reply otherwise. -/
def State.receive (nw w : Nat) (s : State) : Option State :=
  let lane := s.lanes w
  match s.master with
  | .idle => none
  | .generic g =>
    if g.next < nw ∧ g.pStart < g.stop then none
    else
      match lane.mail with
      | [] => none
      | .wget :: mail =>
        if g.pStart < g.stop then
          some
            { s with
              master := .generic g.sent
              lanes := Function.update s.lanes w
                ((lane.keep mail).send (.chunk g.pStart g.pEnd g.fn)) }
        else some { s with lanes := Function.update s.lanes w (lane.keep mail) }
      | .wend :: mail =>
        let nRes := (g.nRes + (2 ^ 64 - 1)) % 2 ^ 64
        let lanes := Function.update s.lanes w (lane.keep mail)
        if g.stop ≤ g.pStart ∧ nRes = 0 then
          some { s with master := .idle, lanes, answered := s.answered ++ [g.fn] }
        else some { s with master := .generic { g with nRes }, lanes }
  | .atomic a =>
    if a.next < nw ∨ .wend ∉ lane.mail then none
    else
      let lanes := Function.update s.lanes w (lane.keep (lane.mail.erase .wend))
      if a.received + 1 = nw then
        some { s with master := .idle, lanes, atomicI := none, answered := s.answered ++ [a.fn] }
      else some { s with master := .atomic { a with received := a.received + 1 }, lanes }

/-- What an event does. -/
def act (nw : Nat) : Event → State → Option State
  | .request r, s =>
    match s.master with
    | .idle =>
      some
        { s with
          master := r.master nw s.requests.length
          atomicI := if r.grain = 1 then some 0 else s.atomicI
          requests := s.requests ++ [r] }
    | _ => none
  | .send, s =>
    match s.master with
    | .idle => none
    | .generic g =>
      if g.next < nw ∧ g.pStart < g.stop then
        some
          { s with
            master := .generic { g.sent with next := g.next + 1 }
            lanes := Function.update s.lanes g.next
              ((s.lanes g.next).send (.chunk g.pStart g.pEnd g.fn)) }
      else none
    | .atomic a =>
      if a.next < nw then
        some
          { s with
            master := .atomic { a with next := a.next + 1 }
            lanes := Function.update s.lanes a.next
              ((s.lanes a.next).send (.atomic a.size a.fn)) }
      else none
  | .begin w, s =>
    (s.lanes w).begin.map fun lane => { s with lanes := Function.update s.lanes w lane }
  | .next w, s => s.next w
  | .receive w, s => s.receive nw w

/-- A step of the parties for the requests that they have. -/
def Work (nw : Nat) (s s' : State) : Prop :=
  ∃ event, (∀ r, event ≠ .request r) ∧ act nw event s = some s'

/-- A step, where the requests that come are admitted ones. -/
def Step (admits : Request → Prop) (nw : Nat) (s s' : State) : Prop :=
  (∃ r, admits r ∧ act nw (.request r) s = some s') ∨ Work nw s s'

/-- The states that admitted requests lead to. -/
def Reaches (admits : Request → Prop) (nw : Nat) : State → Prop :=
  Reachable (fun s => spawn nw = some s) (Step admits nw)

/-- The requests are served as far as they have been. -/
structure Good (nw : Nat) (s : State) : Prop where
  /-- The `fun` of a request is called on indices of its range. -/
  inside : ∀ call ∈ s.called, ∃ r, s.requests[call.1]? = some r ∧ r.start ≤ call.2 ∧ call.2 < r.stop
  /-- No `fun` is called twice on an index. -/
  nodup : s.called.Nodup
  /-- No request is answered twice. -/
  once : s.answered.Nodup
  /-- A request is answered after all calls. -/
  after : ∀ f ∈ s.answered, ∃ r, s.requests[f]? = some r ∧
    ∀ i, r.start ≤ i → i < r.stop → (f, i) ∈ s.called
  /-- When the master waits for a request it has answered all others. -/
  answered : s.master = .idle → ∀ f < s.requests.length, f ∈ s.answered
  /-- When the master waits for a request it has received all replies. -/
  clean : s.master = .idle → ∀ w, (s.lanes w).mail = []
  /-- While a request is not answered the parties can go on. -/
  live : s.master ≠ .idle → ∃ s', Work nw s s'

/-- Admitted requests are served. -/
structure Answers (admits : Request → Prop) (nw : Nat) : Prop where
  /-- The workers can be spawned. -/
  spawns : (spawn nw).isSome
  good : ∀ s, Reaches admits nw s → Good nw s
  /-- The parties do not work forever on the requests that they have. -/
  ends : ¬∃ run : Nat → State, Reaches admits nw (run 0) ∧ ∀ i, Work nw (run i) (run (i + 1))

/-- A range of a `size_t`. -/
def Request.Ordered (r : Request) : Prop := r.start ≤ r.stop ∧ r.stop < 2 ^ 64

/-- When the calls for a request make up its range. With the counter the range starts at zero or is
empty, and the counter does not wrap around. Otherwise the range is not empty, and where the grain
sets the size of the chunks the rest of the division does not exceed the number of chunks. -/
def Request.Fits (nw : Nat) (r : Request) : Prop :=
  if r.grain = 1 then (r.start = 0 ∨ r.start = r.stop) ∧ r.stop - r.start + nw ≤ 2 ^ 64
  else
    r.start < r.stop ∧ (r.grain = 0 ∨ (r.stop - r.start) / nw ≤ r.grain ∨
      (r.stop - r.start) % r.grain ≤ (r.stop - r.start) / r.grain)

end P3arsec.Raytrace.OnDemand
