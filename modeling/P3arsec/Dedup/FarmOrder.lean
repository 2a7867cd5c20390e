import P3arsec.Dedup.Collapsed
import P3arsec.Fastflow.OrderedFarmCorrect

/-!
# dedup on the ordered farm of FastFlow

The farm of `encoder_ff_ofarm.cpp` gives the buffers of `Fragment` to its workers in turn, and its
collector writes the chunks of the buffers that come back. The writer does not look at the sequence
numbers of the chunks, so their order rests on the order of the farm.
-/

namespace P3arsec.Dedup.Collapsed

open P3arsec.Lib P3arsec.Fastflow

variable (cfg : Config)

/-- `CollapsedPipeline::svc` of a worker, whatever `sub_Deduplicate` finds. -/
def serves (_ : Nat) (worker : CollapsedPipeline) (task : Task) (ring : Ring StageChunk)
    (next : CollapsedPipeline) : Prop :=
  ∃ isDuplicate, worker.svc cfg isDuplicate task.buf = some (ring, next)

/-- `Fragment::svc` marks its last buffers only, one for each worker. -/
def MarkedAtEnd (nw : Nat) (tasks : List Task) : Prop :=
  ∀ j task, tasks[j]? = some task → task.buf.last = true → tasks.length ≤ j + nw

variable {cfg} {tasks : List Task}

/-- So only the last task of each worker is marked. -/
theorem MarkedAtEnd.ofWorker {nw first : Nat} (marked : MarkedAtEnd nw tasks) :
    MarkedLastOfWorker (fun j => (first + j) % nw) tasks := fun i j task later before given behind
      last same => by
  have ending := marked i task given last
  have inside := (List.getElem?_eq_some_iff.mp behind).1
  have := RoundRobin.apart before same
  omega

/-- A farm that is in order does what the farm of the workers does, and the collector can write all
that it takes. -/
theorem inOrder_farm {worker : Nat → Nat} (marked : MarkedLastOfWorker worker tasks)
    (small : ∀ task ∈ tasks, task.fineChunks cfg ≤ intMax)
    {a : InOrder (Ring StageChunk) CollapsedPipeline}
    (reached : Reachable (· = .start fun _ => .new cfg)
      (InOrder.Step (serves cfg) worker tasks) a) :
    ∃ written, a.collected.mapM reorder = some written ∧
      Reachable (· = Farm.new cfg) (Farm.Step cfg worker tasks)
        ⟨a.state, a.results, a.collected.length, written.flatten⟩ := by
  induction reached with
  | start begins =>
    subst begins
    exact ⟨[], rfl, .start rfl⟩
  | step _ moves ih =>
    obtain ⟨written, writes, farm⟩ := ih
    cases moves with
    | serve given ready earlier result_of =>
      obtain ⟨isDuplicate, ran⟩ := result_of
      exact ⟨written, writes, farm.step (.svc given ⟨ready, earlier⟩ ran)⟩
    | @collect ring here =>
      obtain ⟨task, isDuplicate, -, returned⟩ :=
        (Farm.reached_correct marked small farm).returned _ ring here
      refine ⟨written ++ [contents cfg isDuplicate task.held], ?_, ?_⟩
      · rw [List.mapM_append, writes]
        simp [returned.written]
      · have moved := farm.step (.collect here returned.written)
        simpa only [List.flatten_append, List.flatten_singleton, List.length_append,
          List.length_singleton] using moved

/-- In every state of the farm the collector has written the fine chunks of the first tasks, and
each worker can serve the task that it has. -/
theorem farm_state {nw : Nat} {entries : Option Nat} (positive : 0 < nw)
    (marked : MarkedAtEnd nw tasks) (small : ∀ task ∈ tasks, task.fineChunks cfg ≤ intMax)
    {f : Ofarm Task (Ring StageChunk) CollapsedPipeline}
    (moves : Relation.ReflTransGen (Ofarm.Step (serves cfg))
      ((Ofarm.make nw entries fun _ => .new cfg).svcInit tasks) f) :
    (∃ written, f.C.collected.mapM reorder = some written ∧
      written.flatten.map StageChunk.toDataChunk =
        ((tasks.take f.C.collected.length).flatMap Task.held).flatMap fun chunk =>
          refine cfg.toPipeConfig chunk.toDataChunk) ∧
    ∀ i task, f.worker i = .working task →
      ∃ ring next, serves cfg i (f.state i) task ring next := by
  have idle : Ofarm.Idle (Ofarm.make nw entries fun _ => CollapsedPipeline.new cfg :
      Ofarm Task (Ring StageChunk) CollapsedPipeline) :=
    ⟨positive, rfl, positive, fun _ => rfl, fun _ => rfl⟩
  obtain ⟨⟨c, k, results, known, seen⟩, running, -⟩ := Ofarm.run idle moves
  have marked := @MarkedAtEnd.ofWorker tasks nw 0 marked
  obtain ⟨written, writes, farm⟩ := inOrder_farm marked small seen
  have correct := Farm.reached_correct marked small farm
  refine ⟨⟨written, writes, correct.written⟩, fun i task here => ?_⟩
  obtain ⟨-, p, -, -, -, -, given, ready, -, lane, earlier⟩ := known.serving here
  rw [running] at lane earlier
  obtain ⟨ring, next, ran, -⟩ := correct.serves p task (fun _ => false) given
    ⟨ready, fun j before same => earlier j before (same.trans lane)⟩
  rw [← lane]
  exact ⟨ring, next, _, ran⟩

/-- dedup on the ordered farm, with any number of workers and queues of any size but zero: in every
interleaving the chunks that have been written are the fine chunks of the first buffers in input
order. Every run ends, and then the fine chunks of the whole input have been written. -/
theorem orderedFarm_writes {nw : Nat} {entries : Option Nat} (positive : 0 < nw)
    (roomy : entries ≠ some 0) (marked : MarkedAtEnd nw tasks)
    (small : ∀ task ∈ tasks, task.fineChunks cfg ≤ intMax)
    {begins : Ofarm Task (Ring StageChunk) CollapsedPipeline}
    (first : begins = (Ofarm.make nw entries fun _ => .new cfg).svcInit tasks) :
    (∀ f, Relation.ReflTransGen (Ofarm.Step (serves cfg)) begins f →
      ∃ written, f.C.collected.mapM reorder = some written ∧
        written.flatten.map StageChunk.toDataChunk =
          ((tasks.take f.C.collected.length).flatMap Task.held).flatMap fun chunk =>
            refine cfg.toPipeConfig chunk.toDataChunk) ∧
    (¬∃ states : Nat → Ofarm Task (Ring StageChunk) CollapsedPipeline, states 0 = begins ∧
      ∀ n, Ofarm.Step (serves cfg) (states n) (states (n + 1))) ∧
    ∀ f, Relation.ReflTransGen (Ofarm.Step (serves cfg)) begins f →
      (¬∃ g, Ofarm.Step (serves cfg) f g) →
        ∃ written, f.C.collected.mapM reorder = some written ∧
          written.flatten.map StageChunk.toDataChunk =
            (tasks.flatMap Task.held).flatMap fun chunk =>
              refine cfg.toPipeConfig chunk.toDataChunk := by
  subst first
  have reached : Ofarm.Reached (serves cfg) (Ofarm.make nw entries fun _ => .new cfg) :=
    .make positive
  have ends := Ofarm.ofarm_terminates reached roomy tasks
    fun f moves => (farm_state positive marked small moves).2
  refine ⟨fun f moves => (farm_state positive marked small moves).1, ends.1,
    fun f moves stuck => ?_⟩
  obtain ⟨-, all, -⟩ := ends.2 f moves stuck
  obtain ⟨written, writes, eq⟩ := (farm_state positive marked small moves).1
  rw [all, List.take_length] at eq
  exact ⟨written, writes, eq⟩

/-- Two buffers for two workers. -/
theorem orderedFarm_writes_two : ¬∃ states : Nat → Ofarm Task (Ring StageChunk) CollapsedPipeline,
    states 0 = (Ofarm.make 2 none fun _ => .new everyByte).svcInit [oneCoarse 3, oneCoarse 2] ∧
      ∀ n, Ofarm.Step (serves everyByte) (states n) (states (n + 1)) := by
  have small : ∀ task ∈ [oneCoarse 3, oneCoarse 2], task.fineChunks everyByte ≤ intMax := by
    rw [List.forall_mem_cons, List.forall_mem_singleton, fineChunks_oneCoarse (by decide),
      fineChunks_oneCoarse (by decide)]
    decide
  have marked : MarkedAtEnd 2 [oneCoarse 3, oneCoarse 2] := fun _ _ _ _ => Nat.le_add_left _ _
  have roomy : (none : Option Nat) ≠ some 0 := nofun
  exact (orderedFarm_writes Nat.two_pos roomy marked small rfl).2.1

end P3arsec.Dedup.Collapsed
