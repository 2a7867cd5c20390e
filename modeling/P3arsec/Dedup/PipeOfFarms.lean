import P3arsec.Lib.Run
import P3arsec.Dedup.Farm

/-!
# The pipeline of farms

`runPipeOfFarms` puts three farms in a row: `Fragment` cuts the input into coarse chunks for the
`FragmentRefine` workers, the `Deduplicate` workers send originals on to be compressed and
duplicates past the compression, and the `Compress` workers send to `Reorder`. The end of the
stream is a mark on the last buffer; `POFEmitter` multiplies it for its workers, `POFCollector`
lets only the last one of its workers pass, and `Reorder` counts those of all workers of the last
farm.

`pipeOfFarms_ends` says what this protocol achieves in every interleaving: the count is reached
once, when every fine chunk has been received and every channel and every buffer is empty.
-/

namespace P3arsec.Dedup

open P3arsec.Lib

variable (cfg : PipeConfig) (nw : Nat)

/-- The buffers that `Fragment::svc` sends, for the coarse chunks that it cuts. All but the last
chunk are inserted with a test for a full buffer; the buffer at the end is marked. -/
def Fragment.sendBufs (sendBuf : SendBuf) : List DataChunk → List Ringbuffer
  | [] => [sendBuf.setLast sendBuf.notBypass]
  | [chunk] => [(sendBuf.insert chunk).setLast (sendBuf.bypassCompress_insert chunk)]
  | chunk :: next :: rest =>
    if full : (sendBuf.insert chunk).isFull then
      sendBuf.insert chunk ::
        sendBufs (.new cfg.anchorDataPerInsert cfg.anchorDataPerInsert_pos) (next :: rest)
    else sendBufs (sendBuf.ofInsert chunk (by simpa using full)) (next :: rest)

/-- `POFCollector::svc`: the count of marks afterwards, and the buffer passed on. -/
def POFCollector.svc (rcvd : Nat) (recvBuf : Ringbuffer) : Nat × Ringbuffer :=
  if recvBuf.last then
    if rcvd + 1 = nw then (0, recvBuf) else (rcvd + 1, recvBuf.resetLast)
  else (rcvd, recvBuf)

/-- The end of `Reorder::svc`, after the loop over the chunks of the buffer. -/
structure ReorderEnd where
  /-- The buffers received. -/
  arrived : List Ringbuffer
  /-- `terminated_w`. -/
  terminatedW : Nat
  /-- Number of calls that flush the cache and close the file. -/
  flushes : Nat

/-- `Reorder::svc` as far as the end of the stream is concerned. -/
def ReorderEnd.svc (reorder : ReorderEnd) (recvBuf : Ringbuffer) : ReorderEnd :=
  let terminatedW := if recvBuf.last then reorder.terminatedW + 1 else reorder.terminatedW
  { arrived := reorder.arrived ++ [recvBuf]
    terminatedW := terminatedW
    flushes := if terminatedW = nw then reorder.flushes + 1 else reorder.flushes }

/-- The farms and collectors of `runPipeOfFarms`. -/
structure Pipe where
  /-- `fraFarm`. -/
  fraFarm : Farm FragmentRefine
  /-- The count of the collector of `fraFarm`. -/
  fraRcvd : Nat
  /-- `dedFarm`. -/
  dedFarm : Farm Deduplicate
  /-- The count of the collector of `dedFarm`. -/
  dedRcvd : Nat
  /-- `cmpFarm`. -/
  cmpFarm : Farm Compress
  /-- The collector of `cmpFarm`. -/
  reorder : ReorderEnd

namespace Pipe

/-- The pipeline at the start, for the coarse chunks of the input. -/
def init (coarse : List DataChunk) : Pipe where
  fraFarm := .init (FragmentRefine.role cfg) (Fragment.sendBufs cfg
    (.new cfg.anchorDataPerInsert cfg.anchorDataPerInsert_pos) coarse)
  fraRcvd := 0
  dedFarm := .init (Deduplicate.role cfg) []
  dedRcvd := 0
  cmpFarm := .init (Compress.role cfg) []
  reorder := ⟨[], 0, 0⟩

/-- A step of some stage. -/
inductive Step : Pipe → Pipe → Prop where
  /-- A step inside `fraFarm`. -/
  | fra {pipe : Pipe} {next : Farm FragmentRefine}
      (moves : pipe.fraFarm.Step cfg (FragmentRefine.role cfg) nw next) :
      Step pipe { pipe with fraFarm := next }
  /-- The collector of `fraFarm` passes a buffer on to `dedFarm`. -/
  | fraCollect {pipe : Pipe} {buf : Ringbuffer} {next : Farm FragmentRefine}
      (moves : pipe.fraFarm.Collect nw buf next) :
      Step pipe { pipe with
        fraFarm := next
        fraRcvd := (POFCollector.svc nw pipe.fraRcvd buf).1
        dedFarm := pipe.dedFarm.push (POFCollector.svc nw pipe.fraRcvd buf).2 }
  /-- A step inside `dedFarm`. -/
  | ded {pipe : Pipe} {next : Farm Deduplicate}
      (moves : pipe.dedFarm.Step cfg (Deduplicate.role cfg) nw next) :
      Step pipe { pipe with dedFarm := next }
  /-- The collector of `dedFarm` passes a buffer on to `cmpFarm`. -/
  | dedCollect {pipe : Pipe} {buf : Ringbuffer} {next : Farm Deduplicate}
      (moves : pipe.dedFarm.Collect nw buf next) :
      Step pipe { pipe with
        dedFarm := next
        dedRcvd := (POFCollector.svc nw pipe.dedRcvd buf).1
        cmpFarm := pipe.cmpFarm.push (POFCollector.svc nw pipe.dedRcvd buf).2 }
  /-- A step inside `cmpFarm`. -/
  | cmp {pipe : Pipe} {next : Farm Compress}
      (moves : pipe.cmpFarm.Step cfg (Compress.role cfg) nw next) :
      Step pipe { pipe with cmpFarm := next }
  /-- `Reorder` receives a buffer. -/
  | reorder {pipe : Pipe} {buf : Ringbuffer} {next : Farm Compress}
      (moves : pipe.cmpFarm.Collect nw buf next) :
      Step pipe { pipe with cmpFarm := next, reorder := pipe.reorder.svc nw buf }

/-- The states of the pipeline in all its runs on an input. -/
def Reached (coarse : List DataChunk) : Pipe → Prop :=
  Reachable (fun pipe => pipe = init cfg coarse) (Step cfg nw)

/-- What every step keeps: the order of the marks in each farm, the counts of the collectors, and
the fine chunks. -/
structure Inv (coarse : List DataChunk) (pipe : Pipe) : Prop where
  /-- `Fragment` has nothing before it. -/
  fra : pipe.fraFarm.Inv (FragmentRefine.role cfg) nw True
  /-- `dedFarm` gets its mark when all marks of `fraFarm` have been collected. -/
  ded : pipe.dedFarm.Inv (Deduplicate.role cfg) nw (pipe.fraFarm.ended nw = nw)
  /-- `cmpFarm` gets its mark when all marks of `dedFarm` have been collected. -/
  cmp : pipe.cmpFarm.Inv (Compress.role cfg) nw (pipe.dedFarm.ended nw = nw)
  /-- The first collector counts the marks, and starts again at the last. -/
  fraRcvd : pipe.fraRcvd = pipe.fraFarm.ended nw % nw
  /-- The second collector counts the marks, and starts again at the last. -/
  dedRcvd : pipe.dedRcvd = pipe.dedFarm.ended nw % nw
  /-- `Reorder` counts the marks. -/
  terminatedW : pipe.reorder.terminatedW = pipe.cmpFarm.ended nw
  /-- The cache is flushed at the last mark. -/
  flushes : pipe.reorder.flushes = if pipe.cmpFarm.ended nw = nw then 1 else 0
  /-- Every fine chunk is in one place. -/
  content : pipe.fraFarm.content (FragmentRefine.role cfg) nw +
    pipe.dedFarm.content (Deduplicate.role cfg) nw +
    pipe.cmpFarm.content (Compress.role cfg) nw + chunksOf pipe.reorder.arrived =
    (coarse.flatMap (refine cfg) : List DataChunk)

end Pipe

variable {cfg nw}

/-- The buffers of `Fragment` hold its chunks, and only the last one is marked. -/
theorem Fragment.sendBufs_spec (coarse : List DataChunk) (sendBuf : SendBuf) :
    Farm.weightOf (FragmentRefine.role cfg) (sendBufs cfg sendBuf coarse) =
      ((sendBuf.data ++ coarse).flatMap (refine cfg) : List DataChunk) ∧
    Closing (marksOf (sendBufs cfg sendBuf coarse)) := by
  have weigh : ∀ buf, (FragmentRefine.role cfg).weight buf =
      (buf.data.flatMap (refine cfg) : List DataChunk) := fun _ => rfl
  induction coarse generalizing sendBuf with
  | nil => simp [sendBufs, weigh]
  | cons chunk coarse ih =>
    cases coarse with
    | nil => simp [sendBufs, weigh, SendBuf.insert]
    | cons next rest =>
      rw [sendBufs]
      split
      · obtain ⟨content, closing⟩ := ih (.new cfg.anchorDataPerInsert cfg.anchorDataPerInsert_pos)
        rw [Farm.weightOf_cons, content, weigh, marksOf_cons, SendBuf.last_insert,
          closing_cons_false]
        refine ⟨?_, closing⟩
        simp [SendBuf.insert, SendBuf.new, Ringbuffer.init]
      · obtain ⟨content, closing⟩ := ih (sendBuf.ofInsert chunk _)
        rw [content]
        refine ⟨?_, closing⟩
        simp [SendBuf.insert, SendBuf.ofInsert]

/-- A farm at the start. -/
theorem Farm.inv_init {S : Type} (role : Role S) {up : Prop} {inp : List Ringbuffer}
    (opened : up ∧ Closing (marksOf inp) ∨ ¬up ∧ inp = []) :
    (Farm.init role inp).Inv role nw up := by
  have waiting : ∀ i < nw, (Farm.init role inp).Waiting role i := by
    intro i _
    constructor <;> simp [init, toLane, fromLane, role.live_start]
  refine ⟨by simp [init], ?_⟩
  rcases opened with ⟨after, closing⟩ | ⟨before, empty⟩
  · exact .ending after closing waiting
  · exact .opened before (by simp [init, empty]) waiting

/-- At the start no worker has ended. -/
@[simp] theorem Farm.ended_init {S : Type} (role : Role S) (inp : List Ringbuffer) :
    (Farm.init role inp).ended nw = 0 := by
  simp [ended, init]

/-- The collector counts the marks of a farm, and its last mark closes the channel to the next
farm. -/
theorem POFCollector.svc_spec {S T : Type} {role : Role S} {later : Role T} {up : Prop}
    {farm next : Farm S} {after : Farm T} {rcvd : Nat} {buf : Ringbuffer}
    (inv : farm.Inv role nw up) (kept : after.Inv later nw (farm.ended nw = nw))
    (counts : rcvd = farm.ended nw % nw) (moves : farm.Collect nw buf next) :
    (svc nw rcvd buf).1 = next.ended nw % nw ∧
    (after.push (svc nw rcvd buf).2).Inv later nw (next.ended nw = nw) ∧
    (svc nw rcvd buf).2.chunks = buf.chunks := by
  have below := inv.ended_lt moves
  have grows := moves.ended
  rw [Nat.mod_eq_of_lt below] at counts
  have before : ¬farm.ended nw = nw := Nat.ne_of_lt below
  unfold svc
  cases marked : buf.last with
  | false =>
    rw [marked, Bool.toNat_false, add_zero] at grows
    rw [if_neg (by simp), grows, Nat.mod_eq_of_lt below]
    exact ⟨counts, kept.push_unmarked before marked, rfl⟩
  | true =>
    rw [marked, Bool.toNat_true] at grows
    rw [if_pos rfl, counts, ← grows]
    split
    · rename_i all
      rw [all, Nat.mod_self]
      exact ⟨rfl, kept.push_marked before rfl marked, rfl⟩
    · rename_i more
      rw [Nat.mod_eq_of_lt (by omega)]
      refine ⟨rfl, (kept.push_unmarked before rfl).congr_up ?_, rfl⟩
      exact ⟨fun all => absurd all before, fun all => absurd all more⟩

namespace Pipe

variable {coarse : List DataChunk} {pipe next : Pipe}

/-- The invariant holds at the start. -/
theorem inv_init (positive : 0 < nw) (coarse : List DataChunk) :
    Inv cfg nw coarse (init cfg coarse) := by
  obtain ⟨content, closing⟩ := Fragment.sendBufs_spec coarse
    (.new cfg.anchorDataPerInsert cfg.anchorDataPerInsert_pos)
  have unended : ¬0 = nw := by omega
  constructor
  · exact Farm.inv_init _ (.inl ⟨trivial, closing⟩)
  · exact Farm.inv_init _ (.inr ⟨by simpa [init] using unended, rfl⟩)
  · exact Farm.inv_init _ (.inr ⟨by simpa [init] using unended, rfl⟩)
  · simp [init]
  · simp [init]
  · simp [init]
  · simp [init, unended]
  · simp only [init, Farm.content_init, content]
    simp [SendBuf.new, Ringbuffer.init]

/-- `Reorder` counts the mark that it receives and flushes at the last one. -/
theorem Inv.reorder {buf : Ringbuffer} {farm : Farm Compress} (inv : Inv cfg nw coarse pipe)
    (moves : pipe.cmpFarm.Collect nw buf farm) :
    (pipe.reorder.svc nw buf).terminatedW = farm.ended nw ∧
    (pipe.reorder.svc nw buf).flushes = if farm.ended nw = nw then 1 else 0 := by
  have below := inv.cmp.ended_lt moves
  have grows := moves.ended
  have none : pipe.reorder.flushes = 0 := by
    rw [inv.flushes, if_neg (Nat.ne_of_lt below)]
  have count : (pipe.reorder.svc nw buf).terminatedW = farm.ended nw := by
    rw [grows, ← inv.terminatedW]
    cases marked : buf.last <;> simp [ReorderEnd.svc, marked]
  refine ⟨count, ?_⟩
  show (if (pipe.reorder.svc nw buf).terminatedW = nw then _ else _) = _
  rw [count, none]

/-- Every step keeps the invariant. -/
theorem Inv.step (inv : Inv cfg nw coarse pipe) (moves : Step cfg nw pipe next) :
    Inv cfg nw coarse next := by
  cases moves with
  | fra moves =>
    have same := moves.ended
    refine ⟨inv.fra.step moves, ?_, inv.cmp, ?_, inv.dedRcvd, inv.terminatedW, inv.flushes, ?_⟩
    · rw [same]
      exact inv.ded
    · rw [same]
      exact inv.fraRcvd
    · rw [inv.fra.content_step moves]
      exact inv.content
  | fraCollect moves =>
    obtain ⟨counts, kept, chunks⟩ := POFCollector.svc_spec inv.fra inv.ded inv.fraRcvd moves
    refine ⟨inv.fra.collect moves, kept, inv.cmp, counts, inv.dedRcvd, inv.terminatedW,
      inv.flushes, ?_⟩
    rw [← inv.content, ← Farm.content_collect _ moves, Farm.content_push]
    show _ + (_ + Ringbuffer.chunks _) + _ + _ = _
    rw [chunks]
    abel
  | ded moves =>
    have same := moves.ended
    refine ⟨inv.fra, inv.ded.step moves, ?_, inv.fraRcvd, ?_, inv.terminatedW, inv.flushes, ?_⟩
    · rw [same]
      exact inv.cmp
    · rw [same]
      exact inv.dedRcvd
    · rw [inv.ded.content_step moves]
      exact inv.content
  | dedCollect moves =>
    obtain ⟨counts, kept, chunks⟩ := POFCollector.svc_spec inv.ded inv.cmp inv.dedRcvd moves
    refine ⟨inv.fra, inv.ded.collect moves, kept, inv.fraRcvd, counts, inv.terminatedW,
      inv.flushes, ?_⟩
    rw [← inv.content, ← Farm.content_collect _ moves, Farm.content_push]
    show _ + _ + (_ + Ringbuffer.chunks _) + _ = _
    rw [chunks]
    abel
  | cmp moves =>
    have same := moves.ended
    refine ⟨inv.fra, inv.ded, inv.cmp.step moves, inv.fraRcvd, inv.dedRcvd, ?_, ?_, ?_⟩
    · rw [same]
      exact inv.terminatedW
    · rw [same]
      exact inv.flushes
    · rw [inv.cmp.content_step moves]
      exact inv.content
  | @reorder buf farm moves =>
    obtain ⟨counts, flushes⟩ := inv.reorder moves
    refine ⟨inv.fra, inv.ded, inv.cmp.collect moves, inv.fraRcvd, inv.dedRcvd, counts, flushes, ?_⟩
    have received : chunksOf (pipe.reorder.svc nw buf).arrived =
        chunksOf pipe.reorder.arrived + buf.chunks := by simp [ReorderEnd.svc]
    rw [← inv.content, ← Farm.content_collect _ moves, received]
    abel

/-- The invariant holds in every reached state. -/
theorem Reached.inv (positive : 0 < nw) (reached : Reached cfg nw coarse pipe) :
    Inv cfg nw coarse pipe := by
  apply Reachable.invariant ?_ ?_ reached
  · rintro _ rfl
    exact inv_init positive coarse
  · intro pipe next inv moves
    exact inv.step moves

/-- The order that every step of the pipeline goes down in. -/
def rank (nw : Nat) (pipe : Pipe) :
    (ℕ ×ₗ ℕ ×ₗ ℕ ×ₗ ℕ ×ₗ ℕ) ×ₗ (ℕ ×ₗ ℕ ×ₗ ℕ ×ₗ ℕ ×ₗ ℕ) ×ₗ (ℕ ×ₗ ℕ ×ₗ ℕ ×ₗ ℕ ×ₗ ℕ) :=
  toLex (pipe.fraFarm.rank nw, toLex (pipe.dedFarm.rank nw, pipe.cmpFarm.rank nw))

/-- A step lowers the rank. -/
theorem Step.rank_lt (moves : Step cfg nw pipe next) : next.rank nw < pipe.rank nw := by
  unfold rank
  simp only [Prod.Lex.toLex_lt_toLex]
  cases moves with
  | fra moves => exact .inl moves.rank_lt
  | fraCollect moves => exact .inl moves.rank_lt
  | ded moves => exact .inr ⟨rfl, .inl moves.rank_lt⟩
  | dedCollect moves => exact .inr ⟨rfl, .inl moves.rank_lt⟩
  | cmp moves => exact .inr ⟨rfl, .inr ⟨rfl, moves.rank_lt⟩⟩
  | reorder moves => exact .inr ⟨rfl, .inr ⟨rfl, moves.rank_lt⟩⟩

/-- When nothing can move, the last mark has reached `Reorder`. -/
theorem Inv.stuck (inv : Inv cfg nw coarse pipe) (positive : 0 < nw)
    (still : ∀ next, ¬Step cfg nw pipe next) : pipe.cmpFarm.ended nw = nw := by
  have fra := inv.fra.stuck positive (fun next moves => still _ (.fra moves))
    (fun buf next moves => still _ (.fraCollect moves)) trivial
  have ded := inv.ded.stuck positive (fun next moves => still _ (.ded moves))
    (fun buf next moves => still _ (.dedCollect moves)) fra
  exact inv.cmp.stuck positive (fun next moves => still _ (.cmp moves))
    (fun buf next moves => still _ (.reorder moves)) ded

variable (cfg nw) in
/-- The end of the stream: nothing is left in any farm, every worker has received exactly one
mark, and `Reorder` has received every fine chunk. -/
structure Finished (coarse : List DataChunk) (pipe : Pipe) : Prop where
  /-- `fraFarm` is finished. -/
  fra : pipe.fraFarm.Finished (FragmentRefine.role cfg) nw
  /-- `dedFarm` is finished. -/
  ded : pipe.dedFarm.Finished (Deduplicate.role cfg) nw
  /-- `cmpFarm` is finished. -/
  cmp : pipe.cmpFarm.Finished (Compress.role cfg) nw
  /-- `Reorder` has received every fine chunk. -/
  received : chunksOf pipe.reorder.arrived = (coarse.flatMap (refine cfg) : List DataChunk)

/-- When all workers have ended everything is finished. -/
theorem Inv.finished (inv : Inv cfg nw coarse pipe) (positive : 0 < nw)
    (all : pipe.cmpFarm.ended nw = nw) : Finished cfg nw coarse pipe := by
  obtain ⟨dedEnded, cmp⟩ := inv.cmp.finished positive all
  obtain ⟨fraEnded, ded⟩ := inv.ded.finished positive dedEnded
  obtain ⟨-, fra⟩ := inv.fra.finished positive fraEnded
  refine ⟨fra, ded, cmp, ?_⟩
  have content := inv.content
  rw [fra.content, ded.content, cmp.content] at content
  simpa using content

/-- Nothing moves any more at the end of the stream. -/
theorem Finished.still (finished : Finished cfg nw coarse pipe) : ¬Step cfg nw pipe next := by
  intro moves
  cases moves with
  | fra moves => exact finished.fra.still moves
  | fraCollect moves => exact finished.fra.uncollected moves
  | ded moves => exact finished.ded.still moves
  | dedCollect moves => exact finished.ded.uncollected moves
  | cmp moves => exact finished.cmp.still moves
  | reorder moves => exact finished.cmp.uncollected moves

end Pipe

/-- The end of the stream in every interleaving. No worker receives a second mark. The count of
`Reorder` never passes its target, the cache is flushed in the call that reaches it and in no
other, and by then every worker has received its mark, every chunk has been received, no chunk is
left in any channel or buffer and nothing moves any more. The target is reached: every run ends,
and it can only end there. -/
theorem pipeOfFarms_ends (positive : 0 < nw) (coarse : List DataChunk) :
    (∀ pipe, Pipe.Reached cfg nw coarse pipe →
      (∀ i < nw, (pipe.fraFarm.lanes i).seen ≤ 1 ∧ (pipe.dedFarm.lanes i).seen ≤ 1 ∧
        (pipe.cmpFarm.lanes i).seen ≤ 1) ∧
      pipe.reorder.terminatedW ≤ nw ∧
      (pipe.reorder.flushes = if pipe.reorder.terminatedW = nw then 1 else 0) ∧
      (pipe.reorder.terminatedW = nw →
        Pipe.Finished cfg nw coarse pipe ∧ ∀ next, ¬Pipe.Step cfg nw pipe next) ∧
      ((∀ next, ¬Pipe.Step cfg nw pipe next) → pipe.reorder.terminatedW = nw)) ∧
    ¬∃ run : ℕ → Pipe, run 0 = Pipe.init cfg coarse ∧
      ∀ n, Pipe.Step cfg nw (run n) (run (n + 1)) := by
  constructor
  · intro pipe reached
    have inv := reached.inv positive
    refine ⟨?_, ?_, ?_, ?_, ?_⟩
    · intro i inside
      exact ⟨(inv.fra.received_le inside).1, (inv.ded.received_le inside).1,
        (inv.cmp.received_le inside).1⟩
    · rw [inv.terminatedW]
      exact inv.cmp.ended_le
    · rw [inv.terminatedW]
      exact inv.flushes
    · intro all
      rw [inv.terminatedW] at all
      have finished := inv.finished positive all
      exact ⟨finished, fun next => finished.still⟩
    · intro still
      rw [inv.terminatedW]
      exact inv.stuck positive still
  · rintro ⟨run, -, moves⟩
    have falls : StrictAnti fun n => (run n).rank nw :=
      strictAnti_nat_of_succ_lt fun n => (moves n).rank_lt
    exact not_strictAnti_of_wellFoundedLT _ falls

/-- Buffers of one or two chunks, and an anchor after every byte. -/
def bytewise : PipeConfig :=
  ⟨1, 1, 2, fun _ => 1, Nat.one_pos, Nat.one_pos, Nat.two_pos, fun _ _ => Nat.one_pos⟩

/-- Two coarse chunks in a pipe of two workers a farm. -/
theorem pipeOfFarms_ends_sample :
    (∀ pipe, Pipe.Reached bytewise 2 [⟨⟨⟨0, 0⟩, false⟩, [7, 8]⟩, ⟨⟨⟨1, 0⟩, false⟩, [9]⟩] pipe →
      (∀ i < 2, (pipe.fraFarm.lanes i).seen ≤ 1 ∧ (pipe.dedFarm.lanes i).seen ≤ 1 ∧
        (pipe.cmpFarm.lanes i).seen ≤ 1) ∧
      pipe.reorder.terminatedW ≤ 2 ∧
      (pipe.reorder.flushes = if pipe.reorder.terminatedW = 2 then 1 else 0) ∧
      (pipe.reorder.terminatedW = 2 →
        Pipe.Finished bytewise 2 [⟨⟨⟨0, 0⟩, false⟩, [7, 8]⟩, ⟨⟨⟨1, 0⟩, false⟩, [9]⟩] pipe ∧
          ∀ next, ¬Pipe.Step bytewise 2 pipe next) ∧
      ((∀ next, ¬Pipe.Step bytewise 2 pipe next) → pipe.reorder.terminatedW = 2)) ∧
    ¬∃ run : ℕ → Pipe,
      run 0 = Pipe.init bytewise [⟨⟨⟨0, 0⟩, false⟩, [7, 8]⟩, ⟨⟨⟨1, 0⟩, false⟩, [9]⟩] ∧
      ∀ n, Pipe.Step bytewise 2 (run n) (run (n + 1)) :=
  pipeOfFarms_ends (by decide) _

end P3arsec.Dedup
