import P3arsec.Dedup.Workers

/-!
# One farm

A farm is an emitter, workers and the channels between them; the task that is taken out of the
channel of a worker is passed on by the collector (`PipeOfFarms.lean`). The emitter sends an
unmarked buffer to any worker, and at a marked one it sends a marked buffer to every worker.
Every channel is first in, first out, and between two sends of one stage the other stages may
take any number of steps.

`Farm.Inv` relates the marks on all channels: the lanes are waiting until the emitter has taken
the mark of its own channel, and from then on each lane has exactly one mark on its way or has
given it to the collector.
-/

namespace P3arsec.Dedup

open P3arsec.Lib

/-- A worker with the channels to it and from it. -/
structure Lane (S : Type) where
  /-- The channel from the emitter, oldest first. -/
  inq : List Ringbuffer
  /-- The worker. -/
  worker : S
  /-- Buffers of the call of `svc` under way that are not sent yet. -/
  out : List Ringbuffer
  /-- The channel to the collector, oldest first. -/
  outq : List Ringbuffer
  /-- Number of marked buffers that the worker has received. -/
  seen : Nat
  /-- Number of marked buffers that the collector has received from the worker. -/
  gone : Nat

/-- A farm without its collector. -/
structure Farm (S : Type) where
  /-- The channel to the emitter. -/
  inp : List Ringbuffer
  /-- Sends of the call of `svc` of the emitter under way, with the worker each one goes to. -/
  pending : List (Nat × Ringbuffer)
  /-- The lanes of the workers. -/
  lanes : Nat → Lane S

variable {S : Type} (cfg : PipeConfig) (role : Role S) (nw : Nat)

/-- `POFEmitter::svc`, and the sends of `Fragment::svc`: a marked buffer goes to worker 0 and new
marked buffers go to the others; an unmarked one goes to the worker `choice` that the load
balancer takes. -/
def POFEmitter.svc (choice : Nat) (recvBuf : Ringbuffer) : List (Nat × Ringbuffer) :=
  if recvBuf.last then
    (0, recvBuf) :: (List.range' 1 (nw - 1)).map fun i => (i, .mark cfg.anchorDataPerInsert)
  else [(choice, recvBuf)]

namespace Farm

/-- The farm with one lane changed. -/
def setLane (farm : Farm S) (i : Nat) (lane : Lane S) : Farm S :=
  { farm with lanes := Function.update farm.lanes i lane }

/-- One step inside a farm. -/
inductive Step : Farm S → Farm S → Prop where
  /-- The emitter takes a buffer from its channel. -/
  | take {farm : Farm S} {recvBuf : Ringbuffer} {rest : List Ringbuffer} (choice : Nat)
      (inp : farm.inp = recvBuf :: rest) (idle : farm.pending = []) (inside : choice < nw) :
      Step farm { farm with inp := rest, pending := POFEmitter.svc cfg nw choice recvBuf }
  /-- The emitter sends a buffer to a worker. -/
  | send {farm : Farm S} {i : Nat} {buf : Ringbuffer} {rest : List (Nat × Ringbuffer)}
      (pending : farm.pending = (i, buf) :: rest) :
      Step farm { farm.setLane i { farm.lanes i with inq := (farm.lanes i).inq ++ [buf] } with
        pending := rest }
  /-- A worker takes a buffer from its channel. -/
  | work {farm : Farm S} {i : Nat} {recvBuf : Ringbuffer} {rest sent : List Ringbuffer} {next : S}
      (decide : Nat → Bool) (inside : i < nw) (inq : (farm.lanes i).inq = recvBuf :: rest)
      (idle : (farm.lanes i).out = [])
      (ran : role.svc decide (farm.lanes i).worker recvBuf = some (sent, next)) :
      Step farm (farm.setLane i { farm.lanes i with
        inq := rest
        worker := next
        out := sent
        seen := (farm.lanes i).seen + recvBuf.last.toNat })
  /-- A worker sends a buffer to the collector. -/
  | deliver {farm : Farm S} {i : Nat} {buf : Ringbuffer} {rest : List Ringbuffer} (inside : i < nw)
      (out : (farm.lanes i).out = buf :: rest) :
      Step farm (farm.setLane i { farm.lanes i with
        out := rest
        outq := (farm.lanes i).outq ++ [buf] })

/-- The collector takes a buffer from the channel of a worker. -/
inductive Collect : Farm S → Ringbuffer → Farm S → Prop where
  /-- The oldest buffer of the channel. -/
  | mk {farm : Farm S} {i : Nat} {buf : Ringbuffer} {rest : List Ringbuffer} (inside : i < nw)
      (outq : (farm.lanes i).outq = buf :: rest) :
      Collect farm buf (farm.setLane i { farm.lanes i with
        outq := rest
        gone := (farm.lanes i).gone + buf.last.toNat })

/-- A buffer is put into the channel to the emitter. -/
def push (farm : Farm S) (buf : Ringbuffer) : Farm S := { farm with inp := farm.inp ++ [buf] }

/-- A farm at the start, with the buffers that already are in the channel to the emitter. -/
def init (inp : List Ringbuffer) : Farm S := ⟨inp, [], fun _ => ⟨[], role.start, [], [], 0, 0⟩⟩

/-- The buffers under way from the emitter to a worker. -/
def toLane (farm : Farm S) (i : Nat) : List Ringbuffer :=
  (farm.lanes i).inq ++ (farm.pending.filter fun entry => entry.1 == i).map Prod.snd

/-- The buffers under way from a worker to the collector. -/
def fromLane (farm : Farm S) (i : Nat) : List Ringbuffer :=
  (farm.lanes i).outq ++ (farm.lanes i).out

/-- Number of workers whose mark has reached the collector. -/
def ended (farm : Farm S) : Nat := ∑ i ∈ Finset.range nw, (farm.lanes i).gone

/-- No mark is in the lane. -/
structure Waiting (farm : Farm S) (i : Nat) : Prop where
  /-- No marked buffer goes to the worker. -/
  toLane : Quiet (marksOf (farm.toLane i))
  /-- No marked buffer comes from the worker. -/
  fromLane : Quiet (marksOf (farm.fromLane i))
  /-- The worker has its buffers. -/
  live : role.live (farm.lanes i).worker
  /-- The worker has received no mark. -/
  seen : (farm.lanes i).seen = 0
  /-- The collector has received no mark from the worker. -/
  gone : (farm.lanes i).gone = 0

/-- The emitter has sent the mark of the lane. -/
inductive Marked (farm : Farm S) (i : Nat) : Prop where
  /-- The mark is on its way to the worker. -/
  | coming (toLane : Closing (marksOf (farm.toLane i)))
      (fromLane : Quiet (marksOf (farm.fromLane i))) (live : role.live (farm.lanes i).worker)
      (seen : (farm.lanes i).seen = 0) (gone : (farm.lanes i).gone = 0)
  /-- The mark is on its way from the worker. -/
  | leaving (toLane : farm.toLane i = []) (fromLane : Closing (marksOf (farm.fromLane i)))
      (held : role.held (farm.lanes i).worker = 0)
      (seen : (farm.lanes i).seen = 1) (gone : (farm.lanes i).gone = 0)
  /-- The mark has reached the collector. -/
  | left (toLane : farm.toLane i = []) (fromLane : farm.fromLane i = [])
      (held : role.held (farm.lanes i).worker = 0)
      (seen : (farm.lanes i).seen = 1) (gone : (farm.lanes i).gone = 1)

/-- Where the mark of the channel to the emitter is; `up` says that the stage before has sent
it. -/
inductive Phase (up : Prop) (farm : Farm S) : Prop where
  /-- The stage before has not sent it. -/
  | opened (before : ¬up) (inp : Quiet (marksOf farm.inp))
      (lanes : ∀ i < nw, farm.Waiting role i)
  /-- It is in the channel. -/
  | ending (after : up) (inp : Closing (marksOf farm.inp))
      (lanes : ∀ i < nw, farm.Waiting role i)
  /-- The emitter has taken it. -/
  | taken (after : up) (inp : farm.inp = []) (lanes : ∀ i < nw, farm.Marked role i)

/-- What every step of a farm keeps. -/
structure Inv (up : Prop) (farm : Farm S) : Prop where
  /-- The emitter sends to workers only. -/
  inside : ∀ entry ∈ farm.pending, entry.1 < nw
  /-- The marks are in order. -/
  phase : farm.Phase role nw up

variable {cfg role nw} {up : Prop} {farm next : Farm S} {i : Nat}

/-- The lane that was set. -/
@[simp] theorem lanes_setLane_same (farm : Farm S) (i : Nat) (lane : Lane S) :
    (farm.setLane i lane).lanes i = lane := by
  simp [setLane]

/-- The other lanes are kept. -/
theorem lanes_setLane_ne (farm : Farm S) {i j : Nat} (lane : Lane S) (away : j ≠ i) :
    (farm.setLane i lane).lanes j = farm.lanes j := by
  simp [setLane, away]

/-- A lane's change keeps the input. -/
@[simp] theorem inp_setLane (farm : Farm S) (i : Nat) (lane : Lane S) :
    (farm.setLane i lane).inp = farm.inp := rfl

/-- A lane's change keeps what is pending. -/
@[simp] theorem pending_setLane (farm : Farm S) (i : Nat) (lane : Lane S) :
    (farm.setLane i lane).pending = farm.pending := rfl

/-- Two farms in which the same is on its way through a lane. -/
structure SameLane (farm next : Farm S) (i : Nat) : Prop where
  /-- The buffers under way to the worker. -/
  toLane : next.toLane i = farm.toLane i
  /-- The buffers under way from the worker. -/
  fromLane : next.fromLane i = farm.fromLane i
  /-- The worker. -/
  worker : (next.lanes i).worker = (farm.lanes i).worker
  /-- The marks received by the worker. -/
  seen : (next.lanes i).seen = (farm.lanes i).seen
  /-- The marks received from the worker. -/
  gone : (next.lanes i).gone = (farm.lanes i).gone

/-- A change of one lane leaves the others as they are. -/
theorem sameLane_setLane (farm : Farm S) {i j : Nat} (lane : Lane S) (away : j ≠ i) :
    SameLane farm (farm.setLane i lane) j := by
  have same := farm.lanes_setLane_ne lane away
  constructor <;> simp [toLane, fromLane, same]

/-- What a lane waits for depends on the lane alone. -/
theorem Waiting.congr (waiting : farm.Waiting role i) (same : SameLane farm next i) :
    next.Waiting role i where
  toLane := same.toLane ▸ waiting.toLane
  fromLane := same.fromLane ▸ waiting.fromLane
  live := same.worker ▸ waiting.live
  seen := same.seen.trans waiting.seen
  gone := same.gone.trans waiting.gone

/-- The marks of a lane depend on the lane alone. -/
theorem Marked.congr (marked : farm.Marked role i) (same : SameLane farm next i) :
    next.Marked role i := by
  cases marked with
  | coming toLane fromLane live seen gone =>
    exact .coming (same.toLane ▸ toLane) (same.fromLane ▸ fromLane) (same.worker ▸ live)
      (same.seen.trans seen) (same.gone.trans gone)
  | leaving toLane fromLane held seen gone =>
    exact .leaving (same.toLane.trans toLane) (same.fromLane ▸ fromLane) (same.worker ▸ held)
      (same.seen.trans seen) (same.gone.trans gone)
  | left toLane fromLane held seen gone =>
    exact .left (same.toLane.trans toLane) (same.fromLane.trans fromLane) (same.worker ▸ held)
      (same.seen.trans seen) (same.gone.trans gone)

/-- A step that changes nothing on the way through the lanes keeps the order of the marks. -/
theorem Phase.congr (phase : farm.Phase role nw up) (inp : next.inp = farm.inp)
    (same : ∀ i < nw, SameLane farm next i) : next.Phase role nw up := by
  cases phase with
  | opened before quiet lanes =>
    exact .opened before (inp ▸ quiet) fun i inside => (lanes i inside).congr (same i inside)
  | ending after closing lanes =>
    exact .ending after (inp ▸ closing) fun i inside => (lanes i inside).congr (same i inside)
  | taken after empty lanes =>
    exact .taken after (inp.trans empty) fun i inside => (lanes i inside).congr (same i inside)

/-- A send moves the buffer from one part of the way to the other. -/
theorem sameLane_send {buf : Ringbuffer} {rest : List (Nat × Ringbuffer)}
    (pending : farm.pending = (i, buf) :: rest) (j : Nat) :
    SameLane farm { farm.setLane i { farm.lanes i with inq := (farm.lanes i).inq ++ [buf] } with
      pending := rest } j := by
  by_cases here : j = i
  · subst here
    constructor <;> simp [toLane, fromLane, pending, setLane]
  · have same : (Function.update farm.lanes i
        { farm.lanes i with inq := (farm.lanes i).inq ++ [buf] }) j = farm.lanes j :=
      Function.update_of_ne here _ _
    have other : (i == j) = false := by simp [Ne.symm here]
    constructor <;> simp [toLane, fromLane, pending, setLane, same, other]

/-- A delivery moves the buffer from one part of the way to the other. -/
theorem sameLane_deliver {buf : Ringbuffer} {rest : List Ringbuffer}
    (out : (farm.lanes i).out = buf :: rest) (j : Nat) :
    SameLane farm (farm.setLane i { farm.lanes i with
      out := rest
      outq := (farm.lanes i).outq ++ [buf] }) j := by
  by_cases here : j = i
  · subst here
    constructor <;> simp [toLane, fromLane, out]
  · exact sameLane_setLane farm _ here

/-- At a marked buffer the emitter sends exactly one buffer to each worker, a marked one. -/
theorem closing_broadcast (cfg : PipeConfig) {recvBuf : Ringbuffer} (marked : recvBuf.last = true)
    (inside : i < nw) : Closing (marksOf (((POFEmitter.svc cfg nw i recvBuf).filter fun entry =>
      entry.1 == i).map Prod.snd)) := by
  rw [POFEmitter.svc, if_pos marked]
  cases i with
  | zero =>
    have others : ∀ j ∈ List.range' 1 (nw - 1), j ≠ 0 := by
      intro j member
      have low := (List.mem_range'_1.mp member).1
      omega
    simpa [marked, List.filter_map, Function.comp_def] using others
  | succ i =>
    have member : i + 1 ∈ List.range' 1 (nw - 1) := List.mem_range'_1.mpr (by omega)
    have once : (List.range' 1 (nw - 1)).filter (fun j => j == i + 1) = [i + 1] := by
      rw [List.filter_beq, List.count_eq_one_of_mem List.nodup_range' member]
      rfl
    simp [List.filter_map, Function.comp_def, once]

/-- After the emitter has taken a buffer, what it sends is on its way to the worker. -/
theorem toLane_take (cfg : PipeConfig) (recvBuf : Ringbuffer) (rest : List Ringbuffer)
    (choice : Nat) (idle : farm.pending = []) (inside : i < nw) :
    let next : Farm S := ⟨rest, POFEmitter.svc cfg nw choice recvBuf, farm.lanes⟩
    (recvBuf.last = false → Quiet (marksOf (farm.toLane i)) → Quiet (marksOf (next.toLane i))) ∧
    (recvBuf.last = true → Quiet (marksOf (farm.toLane i)) →
      Closing (marksOf (next.toLane i))) := by
  dsimp only
  have before : farm.toLane i = (farm.lanes i).inq := by simp [toLane, idle]
  rw [before]
  constructor
  · intro unmarked quiet
    by_cases here : choice = i
    · simp [toLane, POFEmitter.svc, unmarked, here, quiet]
    · simp [toLane, POFEmitter.svc, unmarked, here, quiet]
  · intro marked quiet
    have sends := closing_broadcast cfg marked inside
    have same : POFEmitter.svc cfg nw choice recvBuf = POFEmitter.svc cfg nw i recvBuf := by
      simp [POFEmitter.svc, marked]
    show Closing (marksOf ((farm.lanes i).inq ++ _))
    rw [same, marksOf_append]
    exact quiet.closing_append sends

/-- The step of the emitter keeps the order of the marks. -/
theorem Phase.take {recvBuf : Ringbuffer} {rest : List Ringbuffer} {choice : Nat}
    (phase : farm.Phase role nw up) (inp : farm.inp = recvBuf :: rest) (idle : farm.pending = []) :
    Phase role nw up ⟨rest, POFEmitter.svc cfg nw choice recvBuf, farm.lanes⟩ := by
  have sends := fun i (inside : i < nw) =>
    toLane_take cfg recvBuf rest choice idle inside
  cases phase with
  | opened before quiet lanes =>
    rw [inp, marksOf_cons, quiet_cons] at quiet
    refine .opened before quiet.2 fun i inside => ?_
    have waiting := lanes i inside
    exact ⟨(sends i inside).1 quiet.1 waiting.toLane, waiting.fromLane, waiting.live, waiting.seen,
      waiting.gone⟩
  | ending after closing lanes =>
    rw [inp, marksOf_cons] at closing
    cases marked : recvBuf.last with
    | false =>
      rw [marked, closing_cons_false] at closing
      refine .ending after closing fun i inside => ?_
      have waiting := lanes i inside
      exact ⟨(sends i inside).1 marked waiting.toLane, waiting.fromLane, waiting.live,
        waiting.seen, waiting.gone⟩
    | true =>
      rw [marked, closing_cons_true, marksOf_eq_nil] at closing
      refine .taken after closing fun i inside => ?_
      have waiting := lanes i inside
      exact .coming ((sends i inside).2 marked waiting.toLane) waiting.fromLane waiting.live
        waiting.seen waiting.gone
  | taken after empty lanes =>
    rw [inp] at empty
    simp at empty

section Work

variable {recvBuf : Ringbuffer} {rest sent : List Ringbuffer} {worker : S} {decide : Nat → Bool}

/-- The lane of a worker after it has taken a buffer. -/
def worked (lane : Lane S) (recvBuf : Ringbuffer) (rest sent : List Ringbuffer) (worker : S) :
    Lane S :=
  { lane with inq := rest, worker := worker, out := sent, seen := lane.seen + recvBuf.last.toNat }

/-- A worker turns the oldest buffer on the way to it into the youngest ones on the way from
it. -/
theorem toLane_work (sent : List Ringbuffer) (worker : S)
    (inq : (farm.lanes i).inq = recvBuf :: rest) (idle : (farm.lanes i).out = []) :
    let next := farm.setLane i (worked (farm.lanes i) recvBuf rest sent worker)
    farm.toLane i = recvBuf :: next.toLane i ∧ next.fromLane i = farm.fromLane i ++ sent := by
  simp [toLane, fromLane, worked, inq, idle]

/-- A worker that has taken a buffer waits for the rest. -/
theorem Waiting.work (waiting : farm.Waiting role i) (inq : (farm.lanes i).inq = recvBuf :: rest)
    (idle : (farm.lanes i).out = [])
    (ran : role.svc decide (farm.lanes i).worker recvBuf = some (sent, worker)) :
    (farm.setLane i (worked (farm.lanes i) recvBuf rest sent worker)).Waiting role i := by
  obtain ⟨moved, grown⟩ := toLane_work sent worker inq idle
  have quiet := waiting.toLane
  rw [moved, marksOf_cons, quiet_cons] at quiet
  obtain ⟨sent', worker', ran', -, unmarked, -⟩ := role.spec decide _ recvBuf waiting.live
  rw [ran, Option.some.injEq, Prod.mk.injEq] at ran'
  obtain ⟨rfl, rfl⟩ := ran'
  obtain ⟨silent, live⟩ := unmarked quiet.1
  refine ⟨quiet.2, ?_, ?_, ?_, ?_⟩
  · rw [grown, marksOf_append, quiet_append]
    exact ⟨waiting.fromLane, silent⟩
  · simpa [worked] using live
  · simp [worked, waiting.seen, quiet.1]
  · simp [worked, waiting.gone]

/-- A worker passes the mark on. -/
theorem Marked.work (marked : farm.Marked role i) (inq : (farm.lanes i).inq = recvBuf :: rest)
    (idle : (farm.lanes i).out = [])
    (ran : role.svc decide (farm.lanes i).worker recvBuf = some (sent, worker)) :
    (farm.setLane i (worked (farm.lanes i) recvBuf rest sent worker)).Marked role i := by
  obtain ⟨moved, grown⟩ := toLane_work sent worker inq idle
  cases marked with
  | coming toLane fromLane live seen gone =>
    rw [moved, marksOf_cons] at toLane
    obtain ⟨sent', worker', ran', -, unmarked, final⟩ := role.spec decide _ recvBuf live
    rw [ran, Option.some.injEq, Prod.mk.injEq] at ran'
    obtain ⟨rfl, rfl⟩ := ran'
    cases last : recvBuf.last with
    | false =>
      rw [last, closing_cons_false] at toLane
      obtain ⟨silent, live⟩ := unmarked last
      refine .coming toLane ?_ ?_ ?_ ?_
      · rw [grown, marksOf_append, quiet_append]
        exact ⟨fromLane, silent⟩
      · simpa [worked] using live
      · simp [worked, seen, last]
      · simp [worked, gone]
    | true =>
      rw [last, closing_cons_true, marksOf_eq_nil] at toLane
      obtain ⟨closing, held⟩ := final last
      refine .leaving toLane ?_ ?_ ?_ ?_
      · rw [grown, marksOf_append]
        exact fromLane.closing_append closing
      · simpa [worked] using held
      · simp [worked, seen, last]
      · simp [worked, gone]
  | leaving toLane =>
    rw [moved] at toLane
    simp at toLane
  | left toLane =>
    rw [moved] at toLane
    simp at toLane

end Work

/-- A change of one lane that keeps the state of its marks keeps the order of the marks. -/
theorem Phase.setLane {lane : Lane S} (phase : farm.Phase role nw up)
    (waiting : farm.Waiting role i → (farm.setLane i lane).Waiting role i)
    (marked : farm.Marked role i → (farm.setLane i lane).Marked role i) :
    (farm.setLane i lane).Phase role nw up := by
  have waits : ∀ j, farm.Waiting role j → (farm.setLane i lane).Waiting role j := by
    intro j before
    by_cases here : j = i
    · subst here
      exact waiting before
    · exact before.congr (sameLane_setLane farm lane here)
  have marks : ∀ j, farm.Marked role j → (farm.setLane i lane).Marked role j := by
    intro j before
    by_cases here : j = i
    · subst here
      exact marked before
    · exact before.congr (sameLane_setLane farm lane here)
  cases phase with
  | opened before quiet lanes =>
    exact .opened before quiet fun j inside => waits j (lanes j inside)
  | ending after closing lanes =>
    exact .ending after closing fun j inside => waits j (lanes j inside)
  | taken after empty lanes =>
    exact .taken after empty fun j inside => marks j (lanes j inside)

/-- Every step inside a farm keeps the invariant. -/
theorem Inv.step (inv : farm.Inv role nw up) (moves : Step cfg role nw farm next) :
    next.Inv role nw up := by
  cases moves with
  | take choice inp idle inside =>
    refine ⟨?_, inv.phase.take inp idle⟩
    intro entry member
    unfold POFEmitter.svc at member
    split at member
    · simp only [List.mem_cons, List.mem_map, List.mem_range'_1] at member
      rcases member with rfl | ⟨j, bounds, rfl⟩
      · exact Nat.lt_of_le_of_lt (Nat.zero_le choice) inside
      · show j < nw
        omega
    · rw [List.mem_singleton.mp member]
      exact inside
  | send pending =>
    refine ⟨?_, inv.phase.congr rfl fun j _ => sameLane_send pending j⟩
    intro entry member
    exact inv.inside entry (by rw [pending]; exact List.mem_cons_of_mem _ member)
  | work decide inside inq idle ran =>
    exact ⟨inv.inside, inv.phase.setLane (fun waiting => waiting.work inq idle ran)
      fun marked => marked.work inq idle ran⟩
  | deliver inside out =>
    exact ⟨inv.inside, inv.phase.congr rfl fun j _ => sameLane_deliver out j⟩

/-- What the collector takes is the oldest buffer on the way to it. -/
theorem fromLane_collect {buf : Ringbuffer} {rest : List Ringbuffer}
    (outq : (farm.lanes i).outq = buf :: rest) :
    let next := farm.setLane i { farm.lanes i with
      outq := rest
      gone := (farm.lanes i).gone + buf.last.toNat }
    next.toLane i = farm.toLane i ∧ farm.fromLane i = buf :: next.fromLane i := by
  simp [toLane, fromLane, outq]

/-- The collector keeps the invariant of the farm. -/
theorem Inv.collect {buf : Ringbuffer} (inv : farm.Inv role nw up)
    (moves : Collect nw farm buf next) : next.Inv role nw up := by
  obtain ⟨inside, outq⟩ := moves
  obtain ⟨coming, taken⟩ := fromLane_collect outq
  refine ⟨inv.inside, inv.phase.setLane ?_ ?_⟩
  · intro waiting
    have quiet := waiting.fromLane
    rw [taken, marksOf_cons, quiet_cons] at quiet
    refine ⟨coming ▸ waiting.toLane, quiet.2, ?_, ?_, ?_⟩
    · simpa using waiting.live
    · simpa using waiting.seen
    · simpa [quiet.1] using waiting.gone
  · intro marked
    cases marked with
    | coming toLane fromLane live seen gone =>
      rw [taken, marksOf_cons, quiet_cons] at fromLane
      refine .coming (coming ▸ toLane) fromLane.2 ?_ ?_ ?_
      · simpa using live
      · simpa using seen
      · simpa [fromLane.1] using gone
    | leaving toLane fromLane held seen gone =>
      rw [taken, marksOf_cons] at fromLane
      rcases closing_cons.mp fromLane with ⟨last, fromLane⟩ | ⟨last, fromLane⟩
      · exact .left (coming.trans toLane) (marksOf_eq_nil.mp fromLane) (by simpa using held)
          (by simpa using seen) (by simp [last, gone])
      · exact .leaving (coming.trans toLane) fromLane (by simpa using held) (by simpa using seen)
          (by simpa [last] using gone)
    | left toLane fromLane =>
      rw [taken] at fromLane
      simp at fromLane

/-- An unmarked buffer may be put into the channel as long as the mark has not been sent. -/
theorem Inv.push_unmarked {buf : Ringbuffer} (inv : farm.Inv role nw up) (before : ¬up)
    (unmarked : buf.last = false) : (farm.push buf).Inv role nw up := by
  refine ⟨inv.inside, ?_⟩
  cases inv.phase with
  | opened _ quiet lanes =>
    refine .opened before ?_ fun i inside => (lanes i inside).congr ⟨rfl, rfl, rfl, rfl, rfl⟩
    simpa [push, unmarked] using quiet
  | ending after => exact absurd after before
  | taken after => exact absurd after before

/-- The marked buffer closes the channel. -/
theorem Inv.push_marked {after : Prop} {buf : Ringbuffer} (inv : farm.Inv role nw up)
    (before : ¬up) (now : after) (marked : buf.last = true) :
    (farm.push buf).Inv role nw after := by
  refine ⟨inv.inside, ?_⟩
  cases inv.phase with
  | opened _ quiet lanes =>
    refine .ending now ?_ fun i inside => (lanes i inside).congr ⟨rfl, rfl, rfl, rfl, rfl⟩
    show Closing (marksOf (farm.inp ++ [buf]))
    rw [marksOf_append]
    exact quiet.closing_append (by simp [marked])
  | ending sent => exact absurd sent before
  | taken sent => exact absurd sent before

/-- The invariant speaks of `up` only as a proposition. -/
theorem Inv.congr_up {up' : Prop} (inv : farm.Inv role nw up) (same : up ↔ up') :
    farm.Inv role nw up' := propext same ▸ inv

/-- The mark of a lane is received at most once, by the worker and by the collector. -/
theorem Inv.received_le (inv : farm.Inv role nw up) (inside : i < nw) :
    (farm.lanes i).seen ≤ 1 ∧ (farm.lanes i).gone ≤ 1 := by
  have waits : farm.Waiting role i → (farm.lanes i).seen ≤ 1 ∧ (farm.lanes i).gone ≤ 1 := by
    intro waiting
    rw [waiting.seen, waiting.gone]
    exact ⟨Nat.zero_le 1, Nat.zero_le 1⟩
  cases inv.phase with
  | opened _ _ lanes => exact waits (lanes i inside)
  | ending _ _ lanes => exact waits (lanes i inside)
  | taken _ _ lanes => cases lanes i inside <;> omega

/-- A worker that still gets a buffer has its own buffers. -/
theorem Inv.live (inv : farm.Inv role nw up) (inside : i < nw) {recvBuf : Ringbuffer}
    {rest : List Ringbuffer} (inq : (farm.lanes i).inq = recvBuf :: rest) :
    role.live (farm.lanes i).worker := by
  have coming : farm.toLane i ≠ [] := by simp [toLane, inq]
  cases inv.phase with
  | opened _ _ lanes => exact (lanes i inside).live
  | ending _ _ lanes => exact (lanes i inside).live
  | taken _ _ lanes =>
    cases lanes i inside with
    | coming _ _ live => exact live
    | leaving toLane => exact absurd toLane coming
    | left toLane => exact absurd toLane coming

/-- Each worker counts once. -/
theorem sum_const_one (nw : Nat) : ∑ _i ∈ Finset.range nw, 1 = nw := by simp

/-- No more marks reach the collector than there are workers. -/
theorem Inv.ended_le (inv : farm.Inv role nw up) : farm.ended nw ≤ nw :=
  calc farm.ended nw ≤ ∑ _i ∈ Finset.range nw, 1 :=
        Finset.sum_le_sum fun _ member => (inv.received_le (Finset.mem_range.mp member)).2
    _ = nw := sum_const_one nw

/-- All marks have reached the collector when the mark of each worker has. -/
theorem Inv.ended_eq_iff (inv : farm.Inv role nw up) :
    farm.ended nw = nw ↔ ∀ i < nw, (farm.lanes i).gone = 1 := by
  have bound : ∀ i ∈ Finset.range nw, (farm.lanes i).gone ≤ 1 :=
    fun _ member => (inv.received_le (Finset.mem_range.mp member)).2
  have same := Finset.sum_eq_sum_iff_of_le bound
  rw [sum_const_one] at same
  unfold ended
  rw [same]
  simp only [Finset.mem_range]

variable (role nw) in
/-- A farm that the marks have passed: nothing is left in it, and every worker has received one
mark. -/
structure Finished (farm : Farm S) : Prop where
  /-- The channel to the emitter is empty. -/
  inp : farm.inp = []
  /-- The emitter has sent everything. -/
  pending : farm.pending = []
  /-- The channels to the workers are empty. -/
  inq : ∀ i < nw, (farm.lanes i).inq = []
  /-- The workers have sent everything. -/
  out : ∀ i < nw, (farm.lanes i).out = []
  /-- The channels to the collector are empty. -/
  outq : ∀ i < nw, (farm.lanes i).outq = []
  /-- No chunk is left in a partially filled buffer. -/
  held : ∀ i < nw, role.held (farm.lanes i).worker = 0
  /-- The mark has reached every worker exactly once. -/
  seen : ∀ i < nw, (farm.lanes i).seen = 1

/-- No stage of a finished farm moves. -/
theorem Finished.still (finished : farm.Finished role nw) : ¬Step cfg role nw farm next := by
  intro moves
  cases moves with
  | take _ inp => simp [finished.inp] at inp
  | send pending => simp [finished.pending] at pending
  | work _ inside inq => simp [finished.inq _ inside] at inq
  | deliver inside out => simp [finished.out _ inside] at out

/-- The collector takes nothing from a finished farm. -/
theorem Finished.uncollected {buf : Ringbuffer} (finished : farm.Finished role nw) :
    ¬Collect nw farm buf next := by
  rintro ⟨inside, outq⟩
  simp [finished.outq _ inside] at outq

/-- When all marks have reached the collector, the farm is finished and the stage before has
sent its mark. -/
theorem Inv.finished (inv : farm.Inv role nw up) (positive : 0 < nw)
    (all : farm.ended nw = nw) : up ∧ farm.Finished role nw := by
  have gone := inv.ended_eq_iff.mp all
  have moving : ∀ {i}, i < nw → ¬farm.Waiting role i := by
    intro i inside waiting
    have zero := waiting.gone
    rw [gone i inside] at zero
    omega
  cases inv.phase with
  | opened _ _ lanes => exact absurd (lanes 0 positive) (moving positive)
  | ending _ _ lanes => exact absurd (lanes 0 positive) (moving positive)
  | taken after inp lanes =>
    have left : ∀ i < nw, farm.toLane i = [] ∧ farm.fromLane i = [] ∧
        role.held (farm.lanes i).worker = 0 ∧ (farm.lanes i).seen = 1 := by
      intro i inside
      have one := gone i inside
      cases lanes i inside with
      | coming _ _ _ _ zero => omega
      | leaving _ _ _ _ zero => omega
      | left toLane fromLane held seen => exact ⟨toLane, fromLane, held, seen⟩
    refine ⟨after, inp, ?_, ?_, ?_, ?_, fun i inside => (left i inside).2.2.1,
      fun i inside => (left i inside).2.2.2⟩
    · rw [List.eq_nil_iff_forall_not_mem]
      intro entry member
      have empty := (left entry.1 (inv.inside entry member)).1
      have present : entry.2 ∈ farm.toLane entry.1 :=
        List.mem_append_right _ (List.mem_map.mpr
          ⟨entry, List.mem_filter.mpr ⟨member, by simp⟩, rfl⟩)
      rw [empty] at present
      exact List.not_mem_nil present
    · intro i inside
      exact (List.append_eq_nil_iff.mp (left i inside).1).1
    · intro i inside
      exact (List.append_eq_nil_iff.mp (left i inside).2.1).2
    · intro i inside
      exact (List.append_eq_nil_iff.mp (left i inside).2.1).1

section Content

variable (role nw)

/-- The fine chunks that a list of received buffers stands for. -/
def weightOf (bufs : List Ringbuffer) : Multiset DataChunk := (bufs.map role.weight).sum

/-- The fine chunks in a lane. -/
def laneContent (lane : Lane S) : Multiset DataChunk :=
  weightOf role lane.inq + role.held lane.worker + chunksOf lane.out + chunksOf lane.outq

/-- The fine chunks in the lanes. -/
def lanesContent (farm : Farm S) : Multiset DataChunk :=
  ∑ i ∈ Finset.range nw, laneContent role (farm.lanes i)

/-- The fine chunks in a farm. -/
def content (farm : Farm S) : Multiset DataChunk :=
  weightOf role farm.inp + weightOf role (farm.pending.map Prod.snd) + farm.lanesContent role nw

variable {role nw}

/-- No buffers weigh nothing. -/
@[simp] theorem weightOf_nil : weightOf role [] = 0 := rfl

/-- The weight of the first buffer and of the others. -/
@[simp] theorem weightOf_cons (buf : Ringbuffer) (bufs : List Ringbuffer) :
    weightOf role (buf :: bufs) = role.weight buf + weightOf role bufs := by
  simp [weightOf]

/-- The weights of two lists add up. -/
@[simp] theorem weightOf_append (front back : List Ringbuffer) :
    weightOf role (front ++ back) = weightOf role front + weightOf role back := by
  simp [weightOf]

/-- The chunks of the lanes change by those of the lane that changes. -/
theorem lanesContent_setLane (role : Role S) (farm : Farm S) (lane : Lane S) (inside : i < nw) :
    (farm.setLane i lane).lanesContent role nw + laneContent role (farm.lanes i) =
      farm.lanesContent role nw + laneContent role lane :=
  sum_range_update (laneContent role) farm.lanes lane inside

/-- A lane that keeps its chunks keeps those of the farm. -/
theorem content_setLane (farm : Farm S) (lane : Lane S) (inside : i < nw)
    (same : laneContent role lane = laneContent role (farm.lanes i)) :
    (farm.setLane i lane).content role nw = farm.content role nw := by
  have change := lanesContent_setLane role farm lane inside
  rw [same] at change
  unfold content
  rw [add_right_cancel change]
  rfl

/-- What the emitter sends stands for the chunks that it has received. -/
theorem weightOf_svc (cfg : PipeConfig) (role : Role S) (choice : Nat) (recvBuf : Ringbuffer) :
    weightOf role ((POFEmitter.svc cfg nw choice recvBuf).map Prod.snd) = role.weight recvBuf := by
  unfold POFEmitter.svc
  split
  · have marks : ∀ workers : List Nat, weightOf role
        ((workers.map fun i => (i, Ringbuffer.mark cfg.anchorDataPerInsert)).map Prod.snd) = 0 := by
      intro workers
      induction workers with
      | nil => rfl
      | cons i workers ih =>
        rw [List.map_cons, List.map_cons, weightOf_cons, role.weight_mark, ih, add_zero]
    rw [List.map_cons, weightOf_cons, marks, add_zero]
  · simp

/-- No step inside a farm loses a chunk or makes one up. -/
theorem Inv.content_step (inv : farm.Inv role nw up) (moves : Step cfg role nw farm next) :
    next.content role nw = farm.content role nw := by
  cases moves with
  | take choice inp idle inside =>
    show weightOf role _ + weightOf role ((POFEmitter.svc cfg nw choice _).map Prod.snd) + _ = _
    rw [weightOf_svc, content, inp, idle]
    simp [lanesContent, add_comm]
  | @send i buf rest pending =>
    have inside : i < nw := inv.inside (i, buf) (by rw [pending]; exact List.mem_cons_self)
    have change := lanesContent_setLane role farm
      { farm.lanes i with inq := (farm.lanes i).inq ++ [buf] } inside
    have grown : laneContent role { farm.lanes i with inq := (farm.lanes i).inq ++ [buf] } =
        role.weight buf + laneContent role (farm.lanes i) := by
      simp only [laneContent, weightOf_append, weightOf_cons, weightOf_nil]
      abel
    rw [grown, ← add_assoc] at change
    have lanes := add_right_cancel change
    show weightOf role farm.inp + weightOf role (rest.map Prod.snd) +
      (farm.setLane i _).lanesContent role nw = _
    rw [lanes, content, pending, List.map_cons, weightOf_cons]
    abel
  | @work i recvBuf rest sent worker decide inside inq idle ran =>
    have live := inv.live inside inq
    obtain ⟨sent', worker', ran', kept, -, -⟩ := role.spec decide _ recvBuf live
    rw [ran, Option.some.injEq, Prod.mk.injEq] at ran'
    obtain ⟨rfl, rfl⟩ := ran'
    apply content_setLane farm (worked (farm.lanes i) recvBuf rest sent worker) inside
    simp only [laneContent, worked, inq, idle, weightOf_cons, chunksOf_nil, add_zero]
    rw [add_assoc (weightOf role rest), add_comm (role.held worker), ← kept]
    abel
  | @deliver i buf rest inside out =>
    apply content_setLane farm _ inside
    simp only [laneContent, out, chunksOf_append, chunksOf_cons, chunksOf_nil]
    abel

/-- The collector takes the chunks of the buffer out of the farm. -/
theorem content_collect {buf : Ringbuffer} (role : Role S) (moves : Collect nw farm buf next) :
    next.content role nw + buf.chunks = farm.content role nw := by
  obtain @⟨i, _, rest, inside, outq⟩ := moves
  have change := lanesContent_setLane role farm { farm.lanes i with
    outq := rest
    gone := (farm.lanes i).gone + buf.last.toNat } inside
  have shrunk : laneContent role (farm.lanes i) = buf.chunks + laneContent role
      { farm.lanes i with outq := rest, gone := (farm.lanes i).gone + buf.last.toNat } := by
    simp only [laneContent, outq, chunksOf_cons]
    abel
  rw [shrunk, ← add_assoc] at change
  have lanes := add_right_cancel change
  show weightOf role farm.inp + weightOf role (farm.pending.map Prod.snd) +
    (farm.setLane i _).lanesContent role nw + buf.chunks = _
  rw [add_assoc, lanes]
  rfl

/-- A buffer put into the channel brings its chunks. -/
theorem content_push (role : Role S) (farm : Farm S) (buf : Ringbuffer) :
    (farm.push buf).content role nw = farm.content role nw + role.weight buf := by
  simp only [content, push, weightOf_append, weightOf_cons, weightOf_nil, add_zero, lanesContent]
  abel

/-- At the start the farm holds its input. -/
theorem content_init (inp : List Ringbuffer) : (init role inp).content role nw =
    weightOf role inp := by
  simp [content, init, lanesContent, laneContent, role.held_start]

/-- A finished farm has no chunk. -/
theorem Finished.content (finished : farm.Finished role nw) : farm.content role nw = 0 := by
  have lanes : farm.lanesContent role nw = 0 := by
    apply Finset.sum_eq_zero
    intro i member
    have inside := Finset.mem_range.mp member
    simp [laneContent, finished.inq i inside, finished.out i inside, finished.outq i inside,
      finished.held i inside]
  simp [Farm.content, finished.inp, finished.pending, lanes]

end Content

section Progress

/-- A step inside a farm hands no mark to the collector. -/
theorem Step.ended (moves : Step cfg role nw farm next) : next.ended nw = farm.ended nw := by
  have kept : ∀ {i : Nat} {lane : Lane S}, lane.gone = (farm.lanes i).gone →
      (farm.setLane i lane).ended nw = farm.ended nw := by
    intro i lane same
    apply Finset.sum_congr rfl
    intro j _
    by_cases here : j = i
    · subst here
      simpa using same
    · rw [lanes_setLane_ne farm lane here]
  cases moves with
  | take => rfl
  | send => exact kept rfl
  | work => exact kept rfl
  | deliver => exact kept rfl

/-- The collector counts the mark that it takes. -/
theorem Collect.ended {buf : Ringbuffer} (moves : Collect nw farm buf next) :
    next.ended nw = farm.ended nw + buf.last.toNat := by
  obtain @⟨i, _, rest, inside, outq⟩ := moves
  have change := sum_range_update Lane.gone farm.lanes { farm.lanes i with
    outq := rest
    gone := (farm.lanes i).gone + buf.last.toNat } inside
  show ∑ j ∈ Finset.range nw, (Function.update farm.lanes i _ j).gone = _
  unfold Farm.ended
  dsimp only at change ⊢
  omega

/-- From a farm whose marks have all gone the collector takes nothing. -/
theorem Inv.ended_lt {buf : Ringbuffer} (inv : farm.Inv role nw up)
    (moves : Collect nw farm buf next) : farm.ended nw < nw := by
  apply Nat.lt_of_le_of_ne inv.ended_le
  intro all
  obtain @⟨i, _, rest, inside, outq⟩ := moves
  have finished := (inv.finished (Nat.zero_lt_of_lt inside) all).2
  rw [finished.outq i inside] at outq
  simp at outq

/-- The order that every step of a farm goes down in: what is before the emitter, what it is
sending, what is before the workers, what they are sending, what is before the collector. -/
def rank (nw : Nat) (farm : Farm S) : ℕ ×ₗ ℕ ×ₗ ℕ ×ₗ ℕ ×ₗ ℕ :=
  toLex (farm.inp.length, toLex (farm.pending.length,
    toLex (∑ i ∈ Finset.range nw, (farm.lanes i).inq.length,
      toLex (∑ i ∈ Finset.range nw, (farm.lanes i).out.length,
        ∑ i ∈ Finset.range nw, (farm.lanes i).outq.length))))

/-- Every step inside a farm goes down. -/
theorem Step.rank_lt (moves : Step cfg role nw farm next) : next.rank nw < farm.rank nw := by
  have change := fun {i : Nat} (inside : i < nw) (lane : Lane S) (weight : Lane S → Nat) =>
    sum_range_update weight farm.lanes lane inside
  cases moves with
  | take choice inp idle inside => simp [rank, Prod.Lex.toLex_lt_toLex, inp]
  | send pending => simp [rank, Prod.Lex.toLex_lt_toLex, pending, setLane]
  | @work i recvBuf rest sent worker decide inside inq idle ran =>
    have fewer := change inside (worked (farm.lanes i) recvBuf rest sent worker) fun lane =>
      lane.inq.length
    simp only [worked, inq, List.length_cons] at fewer
    simp only [rank, setLane, Prod.Lex.toLex_lt_toLex]
    right
    refine ⟨trivial, .inr ⟨trivial, .inl ?_⟩⟩
    omega
  | @deliver i buf rest inside out =>
    have same := change inside { farm.lanes i with
      out := rest
      outq := (farm.lanes i).outq ++ [buf] } fun lane => lane.inq.length
    have fewer := change inside { farm.lanes i with
      out := rest
      outq := (farm.lanes i).outq ++ [buf] } fun lane => lane.out.length
    simp only [out, List.length_cons] at same fewer
    simp only [rank, setLane, Prod.Lex.toLex_lt_toLex]
    right
    refine ⟨trivial, .inr ⟨trivial, .inr ⟨?_, .inl ?_⟩⟩⟩ <;> omega

/-- Every step of the collector goes down. -/
theorem Collect.rank_lt {buf : Ringbuffer} (moves : Collect nw farm buf next) :
    next.rank nw < farm.rank nw := by
  obtain @⟨i, _, rest, inside, outq⟩ := moves
  have change := fun (weight : Lane S → Nat) => sum_range_update weight farm.lanes
    { farm.lanes i with outq := rest, gone := (farm.lanes i).gone + buf.last.toNat } inside
  have waiting := change fun lane => lane.inq.length
  have sending := change fun lane => lane.out.length
  have fewer := change fun lane => lane.outq.length
  simp only [outq, List.length_cons] at waiting sending fewer
  simp only [rank, setLane, Prod.Lex.toLex_lt_toLex]
  right
  refine ⟨trivial, .inr ⟨trivial, .inr ⟨?_, .inr ⟨?_, ?_⟩⟩⟩⟩ <;> omega

/-- When nothing in a farm can move and the stage before has sent its mark, all marks have
reached the collector. -/
theorem Inv.stuck (inv : farm.Inv role nw up) (positive : 0 < nw)
    (still : ∀ next, ¬Step cfg role nw farm next)
    (kept : ∀ buf next, ¬Collect nw farm buf next) : up → farm.ended nw = nw := by
  have pending : farm.pending = [] := by
    cases here : farm.pending with
    | nil => rfl
    | cons entry rest => exact absurd (.send here) (still _)
  have inp : farm.inp = [] := by
    cases here : farm.inp with
    | nil => rfl
    | cons buf rest => exact absurd (.take 0 here pending positive) (still _)
  have out : ∀ i < nw, (farm.lanes i).out = [] := by
    intro i inside
    cases here : (farm.lanes i).out with
    | nil => rfl
    | cons buf rest => exact absurd (.deliver inside here) (still _)
  have outq : ∀ i < nw, (farm.lanes i).outq = [] := by
    intro i inside
    cases here : (farm.lanes i).outq with
    | nil => rfl
    | cons buf rest => exact absurd (.mk inside here) (kept buf _)
  have inq : ∀ i < nw, (farm.lanes i).inq = [] := by
    intro i inside
    cases here : (farm.lanes i).inq with
    | nil => rfl
    | cons buf rest =>
      obtain ⟨sent, worker, ran, -⟩ := role.spec (fun _ => false) _ buf (inv.live inside here)
      exact absurd (.work _ inside here (out i inside) ran) (still _)
  intro after
  rw [inv.ended_eq_iff]
  intro i inside
  have toLane : farm.toLane i = [] := by simp [Farm.toLane, pending, inq i inside]
  have fromLane : farm.fromLane i = [] := by
    simp [Farm.fromLane, out i inside, outq i inside]
  cases inv.phase with
  | opened before => exact absurd after before
  | ending _ closing => simp [inp] at closing
  | taken _ _ lanes =>
    cases lanes i inside with
    | coming closing => simp [toLane] at closing
    | leaving _ closing => simp [fromLane] at closing
    | left _ _ _ _ gone => exact gone

end Progress

end Farm

end P3arsec.Dedup
