import P3arsec.Dedup.Termination

/-!
# The originals of the chunks

`Deduplicate` puts the first chunk with a key into the hash table and sends it to `Compress`, and
makes every other chunk with the key a reference to it. Behind `Deduplicate` the original of every
chunk is compressed or on its way to `Compress` (`Traced`).
-/

namespace P3arsec.Dedup.Pthreads

open P3arsec.Lib

/-- The chunks in a queue have been through `Deduplicate`. -/
def Que.deduplicated : Que → Bool
  | .refine => false
  | .deduplicate => false
  | .compress => true
  | .reorder => true

namespace Pipeline

variable {κ : Type} {setup : Setup} {input : Input κ} {pipe next : Pipeline κ}
  {stage : Stage} {t : Nat} {chunk : Sequence}

/-- A chunk is in a place behind `Deduplicate`. -/
inductive Past (pipe : Pipeline κ) (chunk : Sequence) : Prop where
  /-- It is in a queue. -/
  | queue (que : Que) (q : Nat) (behind : que.deduplicated = true)
      (here : chunk ∈ (pipe.queues que q).buf)
  /-- A thread has received it. -/
  | recvBuf (stage : Stage) (t : Nat) (behind : stage.input.deduplicated = true)
      (here : chunk ∈ (pipe.workers stage t).recvBuf)
  /-- A thread has still to insert it. -/
  | todo (stage : Stage) (t : Nat) (port : Port)
      (behind : (stage.output port).deduplicated = true)
      (here : (port, chunk) ∈ (pipe.workers stage t).todo)
  /-- It is in a send buffer. -/
  | sendBuf (stage : Stage) (t : Nat) (port : Port)
      (behind : (stage.output port).deduplicated = true)
      (here : chunk ∈ (pipe.workers stage t).sendBuf port)
  /-- `Reorder` has received it. -/
  | received (here : chunk ∈ pipe.reorder.recvBuf)
  /-- `Reorder` has put it into the tree. -/
  | tree (here : chunk ∈ pipe.reorder.tree)
  /-- `Reorder` is writing it. -/
  | writing (here : pipe.reorder.writing = some chunk)

/-- A chunk is on its way to `Compress`. -/
inductive Awaits (setup : Setup) (pipe : Pipeline κ) (chunk : Sequence) : Prop where
  /-- A thread has still to insert it. -/
  | todo (stage : Stage) (t : Nat) (port : Port) (inside : t < setup.nthreads)
      (before : stage.output port = .compress)
      (here : (port, chunk) ∈ (pipe.workers stage t).todo)
  /-- It is in a send buffer. -/
  | sendBuf (stage : Stage) (t : Nat) (port : Port) (inside : t < setup.nthreads)
      (before : stage.output port = .compress)
      (here : chunk ∈ (pipe.workers stage t).sendBuf port)
  /-- It is in a compress queue. -/
  | queue (q : Nat) (inside : q < setup.nqueues) (here : chunk ∈ (pipe.queues .compress q).buf)
  /-- A thread has received it. -/
  | recvBuf (stage : Stage) (t : Nat) (inside : t < setup.nthreads)
      (before : stage.input = .compress) (here : chunk ∈ (pipe.workers stage t).recvBuf)

/-- What is known of the originals. -/
structure Traced (setup : Setup) (input : Input κ) (pipe : Pipeline κ) : Prop where
  /-- A reference is to the original of the key. -/
  refs : ∀ chunk entry, pipe.compressedDataRef chunk = some entry →
    pipe.cache (input.sha1 chunk) = some entry
  /-- The original of a chunk behind `Deduplicate` is in the hash table. -/
  known : ∀ chunk, Past pipe chunk → pipe.cache (input.sha1 chunk) = some (pipe.original chunk)
  /-- An original is compressed or on its way. -/
  placed : ∀ key entry, pipe.cache key = some entry →
    pipe.compressed entry = true ∨ Awaits setup pipe entry

namespace Past

/-- After a change of a thread a chunk is where it was, or the thread has it. -/
theorem setWorker {worker : Worker} (past : Past (pipe.setWorker stage t worker) chunk) :
    Past pipe chunk ∨ (stage.input.deduplicated = true ∧ chunk ∈ worker.recvBuf) ∨
      ∃ port, (stage.output port).deduplicated = true ∧
        ((port, chunk) ∈ worker.todo ∨ chunk ∈ worker.sendBuf port) := by
  cases past with
  | queue que q behind here => exact .inl (.queue que q behind here)
  | recvBuf stage' t' behind here =>
    rw [workers_setWorker] at here
    split at here
    · rename_i same
      obtain ⟨rfl, rfl⟩ := same
      exact .inr (.inl ⟨behind, here⟩)
    · exact .inl (.recvBuf stage' t' behind here)
  | todo stage' t' port behind here =>
    rw [workers_setWorker] at here
    split at here
    · rename_i same
      obtain ⟨rfl, rfl⟩ := same
      exact .inr (.inr ⟨port, behind, .inl here⟩)
    · exact .inl (.todo stage' t' port behind here)
  | sendBuf stage' t' port behind here =>
    rw [workers_setWorker] at here
    split at here
    · rename_i same
      obtain ⟨rfl, rfl⟩ := same
      exact .inr (.inr ⟨port, behind, .inr here⟩)
    · exact .inl (.sendBuf stage' t' port behind here)
  | received here => exact .inl (.received here)
  | tree here => exact .inl (.tree here)
  | writing here => exact .inl (.writing here)

/-- After a change of a queue a chunk is where it was, or in the queue. -/
theorem setQueue {que : Que} {q : Nat} {queue : Queue Sequence}
    (past : Past (pipe.setQueue que q queue) chunk) :
    Past pipe chunk ∨ (que.deduplicated = true ∧ chunk ∈ queue.buf) := by
  cases past with
  | queue que' q' behind here =>
    rw [queues_setQueue] at here
    split at here
    · rename_i same
      obtain ⟨rfl, rfl⟩ := same
      exact .inr ⟨behind, here⟩
    · exact .inl (.queue que' q' behind here)
  | recvBuf stage t behind here => exact .inl (.recvBuf stage t behind here)
  | todo stage t port behind here => exact .inl (.todo stage t port behind here)
  | sendBuf stage t port behind here => exact .inl (.sendBuf stage t port behind here)
  | received here => exact .inl (.received here)
  | tree here => exact .inl (.tree here)
  | writing here => exact .inl (.writing here)

/-- A change of `Fragment` moves no chunk behind `Deduplicate`. -/
theorem fragment {fragment : Fragmenter} (past : Past { pipe with fragment := fragment } chunk) :
    Past pipe chunk := by
  cases past with
  | queue que q behind here => exact .queue que q behind here
  | recvBuf stage t behind here => exact .recvBuf stage t behind here
  | todo stage t port behind here => exact .todo stage t port behind here
  | sendBuf stage t port behind here => exact .sendBuf stage t port behind here
  | received here => exact .received here
  | tree here => exact .tree here
  | writing here => exact .writing here

/-- After a change of `Reorder` a chunk is where it was, or `Reorder` has it. -/
theorem setReorder {reorder : Reorderer} (past : Past { pipe with reorder := reorder } chunk) :
    Past pipe chunk ∨ chunk ∈ reorder.recvBuf ∨ chunk ∈ reorder.tree ∨
      reorder.writing = some chunk := by
  cases past with
  | queue que q behind here => exact .inl (.queue que q behind here)
  | recvBuf stage t behind here => exact .inl (.recvBuf stage t behind here)
  | todo stage t port behind here => exact .inl (.todo stage t port behind here)
  | sendBuf stage t port behind here => exact .inl (.sendBuf stage t port behind here)
  | received here => exact .inr (.inl here)
  | tree here => exact .inr (.inr (.inl here))
  | writing here => exact .inr (.inr (.inr here))

/-- After a change of a thread that keeps its chunks a chunk is where it was. -/
theorem kept {worker : Worker} (past : Past (pipe.setWorker stage t worker) chunk)
    (recvBuf : worker.recvBuf = (pipe.workers stage t).recvBuf)
    (todo : worker.todo = (pipe.workers stage t).todo)
    (sendBuf : worker.sendBuf = (pipe.workers stage t).sendBuf) : Past pipe chunk := by
  rcases past.setWorker with before | ⟨behind, here⟩ | ⟨port, behind, here | here⟩
  · exact before
  · exact .recvBuf stage t behind (recvBuf ▸ here)
  · exact .todo stage t port behind (todo ▸ here)
  · exact .sendBuf stage t port behind (sendBuf ▸ here)

end Past

namespace Awaits

/-- After a change of a thread a chunk on its way is where it was, or the thread had it. -/
theorem setWorker (awaits : Awaits setup pipe chunk) (worker : Worker) :
    Awaits setup (pipe.setWorker stage t worker) chunk ∨
      (stage.input = .compress ∧ chunk ∈ (pipe.workers stage t).recvBuf) ∨
      ∃ port, stage.output port = .compress ∧ ((port, chunk) ∈ (pipe.workers stage t).todo ∨
        chunk ∈ (pipe.workers stage t).sendBuf port) := by
  cases awaits with
  | todo stage' t' port inside before here =>
    by_cases same : stage' = stage ∧ t' = t
    · obtain ⟨rfl, rfl⟩ := same
      exact .inr (.inr ⟨port, before, .inl here⟩)
    · refine .inl (.todo stage' t' port inside before ?_)
      rw [workers_setWorker, if_neg same]
      exact here
  | sendBuf stage' t' port inside before here =>
    by_cases same : stage' = stage ∧ t' = t
    · obtain ⟨rfl, rfl⟩ := same
      exact .inr (.inr ⟨port, before, .inr here⟩)
    · refine .inl (.sendBuf stage' t' port inside before ?_)
      rw [workers_setWorker, if_neg same]
      exact here
  | queue q inside here => exact .inl (.queue q inside here)
  | recvBuf stage' t' inside before here =>
    by_cases same : stage' = stage ∧ t' = t
    · obtain ⟨rfl, rfl⟩ := same
      exact .inr (.inl ⟨before, here⟩)
    · refine .inl (.recvBuf stage' t' inside before ?_)
      rw [workers_setWorker, if_neg same]
      exact here

/-- After a change of a queue a chunk on its way is where it was, or was in the queue. -/
theorem setQueue (awaits : Awaits setup pipe chunk) (que : Que) (q : Nat)
    (queue : Queue Sequence) :
    Awaits setup (pipe.setQueue que q queue) chunk ∨
      (que = .compress ∧ q < setup.nqueues ∧ chunk ∈ (pipe.queues que q).buf) := by
  cases awaits with
  | todo stage t port inside before here => exact .inl (.todo stage t port inside before here)
  | sendBuf stage t port inside before here =>
    exact .inl (.sendBuf stage t port inside before here)
  | queue q' inside here =>
    by_cases same : Que.compress = que ∧ q' = q
    · obtain ⟨rfl, rfl⟩ := same
      exact .inr ⟨rfl, inside, here⟩
    · refine .inl (.queue q' inside ?_)
      rw [queues_setQueue, if_neg same]
      exact here
  | recvBuf stage t inside before here => exact .inl (.recvBuf stage t inside before here)

/-- The places of the chunks on their way are queues and threads in the middle. -/
theorem congr (awaits : Awaits setup pipe chunk) (queues : next.queues = pipe.queues)
    (workers : next.workers = pipe.workers) : Awaits setup next chunk := by
  cases awaits with
  | todo stage t port inside before here =>
    exact .todo stage t port inside before (workers ▸ here)
  | sendBuf stage t port inside before here =>
    exact .sendBuf stage t port inside before (workers ▸ here)
  | queue q inside here => exact .queue q inside (queues ▸ here)
  | recvBuf stage t inside before here => exact .recvBuf stage t inside before (workers ▸ here)

variable {worker : Worker} (inside : t < setup.nthreads)

include inside

/-- A thread has a chunk to insert that is on its way. -/
theorem todo_self {port : Port} (before : stage.output port = .compress)
    (here : (port, chunk) ∈ worker.todo) : Awaits setup (pipe.setWorker stage t worker) chunk := by
  refine .todo stage t port inside before ?_
  rw [workers_setWorker, if_pos ⟨rfl, rfl⟩]
  exact here

/-- A thread has a chunk in a send buffer that is on its way. -/
theorem sendBuf_self {port : Port} (before : stage.output port = .compress)
    (here : chunk ∈ worker.sendBuf port) :
    Awaits setup (pipe.setWorker stage t worker) chunk := by
  refine .sendBuf stage t port inside before ?_
  rw [workers_setWorker, if_pos ⟨rfl, rfl⟩]
  exact here

/-- A thread has received a chunk that is on its way. -/
theorem recvBuf_self (before : stage.input = .compress) (here : chunk ∈ worker.recvBuf) :
    Awaits setup (pipe.setWorker stage t worker) chunk := by
  refine .recvBuf stage t inside before ?_
  rw [workers_setWorker, if_pos ⟨rfl, rfl⟩]
  exact here

/-- A chunk in a compress queue is on its way. -/
theorem queue_self {que : Que} {queue : Queue Sequence} (before : que = .compress)
    (here : chunk ∈ queue.buf) :
    Awaits setup ((pipe.setQueue que (setup.qid t) queue).setWorker stage t worker) chunk := by
  refine .queue (setup.qid t) (setup.known t inside) ?_
  rw [queues_setWorker, queues_setQueue, if_pos ⟨before.symm, rfl⟩]
  exact here

/-- After a change of a thread that keeps its chunks a chunk on its way is where it was. -/
theorem kept (awaits : Awaits setup pipe chunk)
    (recvBuf : worker.recvBuf = (pipe.workers stage t).recvBuf)
    (todo : worker.todo = (pipe.workers stage t).todo)
    (sendBuf : worker.sendBuf = (pipe.workers stage t).sendBuf) :
    Awaits setup (pipe.setWorker stage t worker) chunk := by
  rcases awaits.setWorker worker with after | ⟨before, here⟩ | ⟨port, before, here | here⟩
  · exact after
  · exact recvBuf_self inside before (recvBuf ▸ here)
  · exact todo_self inside before (todo ▸ here)
  · exact sendBuf_self inside before (sendBuf ▸ here)

end Awaits

/-- A step that changes nothing of the originals but that more of them are compressed. -/
theorem Traced.moved (traced : Traced setup input pipe)
    (past : ∀ chunk, Past next chunk → Past pipe chunk)
    (awaits : ∀ chunk, Awaits setup pipe chunk →
      next.compressed chunk = true ∨ Awaits setup next chunk)
    (cache : next.cache = pipe.cache)
    (refs : next.compressedDataRef = pipe.compressedDataRef)
    (compressed : ∀ chunk, pipe.compressed chunk = true → next.compressed chunk = true) :
    Traced setup input next where
  refs chunk entry known := by
    rw [refs] at known
    rw [cache]
    exact traced.refs chunk entry known
  known chunk here := by
    rw [cache, original, refs]
    exact traced.known chunk (past chunk here)
  placed key entry known := by
    rw [cache] at known
    rcases traced.placed key entry known with done | waits
    · exact .inl (compressed entry done)
    · exact awaits entry waits

/-- A thread of `Deduplicate` processes a chunk next. -/
def Deduplicates (pipe : Pipeline κ) (stage : Stage) (t : Nat) (chunk : Sequence) : Prop :=
  stage = .deduplicate ∧ (pipe.workers stage t).enqueues = none ∧
    (pipe.workers stage t).phase = .loop ∧ (pipe.workers stage t).todo = [] ∧
    ∃ recvBuf, (pipe.workers stage t).recvBuf = chunk :: recvBuf

namespace WorkerStep

variable [DecidableEq κ]

/-- After a step of a thread a chunk was behind `Deduplicate` before, or this is its step. -/
theorem past (moves : WorkerStep setup input stage t pipe next) (past : Past next chunk) :
    Past pipe chunk ∨ Deduplicates pipe stage t chunk := by
  cases moves with
  | enqueue port busy room =>
    rcases past.setWorker with before | ⟨behind, here⟩ | ⟨port', behind, here | here⟩
    · rcases before.setQueue with before | ⟨behind, here⟩
      · exact .inl before
      · rcases List.mem_append.mp here with old | new
        · exact .inl (.queue _ _ behind old)
        · exact .inl (.sendBuf stage t port behind (List.mem_of_mem_take new))
    · exact .inl (.recvBuf stage t behind here)
    · exact .inl (.todo stage t port' behind here)
    · dsimp only at here
      by_cases same : port' = port
      · subst same
        rw [Function.update_self] at here
        exact .inl (.sendBuf stage t port' behind (List.mem_of_mem_drop here))
      · rw [Function.update_of_ne same] at here
        exact .inl (.sendBuf stage t port' behind here)
  | insert port moved todo idle phase more =>
    rcases past.setWorker with before | ⟨behind, here⟩ | ⟨port', behind, here | here⟩
    · exact .inl before
    · exact .inl (.recvBuf stage t behind here)
    · exact .inl (.todo stage t port' behind (by rw [more]; exact List.mem_cons_of_mem _ here))
    · dsimp only at here
      by_cases same : port' = port
      · subst same
        rw [Function.update_self] at here
        rcases List.mem_append.mp here with old | new
        · exact .inl (.sendBuf stage t port' behind old)
        · rw [List.mem_singleton.mp new]
          exact .inl (.todo stage t port' behind (by rw [more]; exact List.mem_cons_self))
      · rw [Function.update_of_ne same] at here
        exact .inl (.sendBuf stage t port' behind here)
  | process received recvBuf idle phase done got =>
    obtain ⟨queues, workers, -, reorder⟩ := Inv.process_same input pipe stage received
    rcases past.setWorker with before | ⟨behind, here⟩ | ⟨port, behind, here | here⟩
    · refine .inl ?_
      cases before with
      | queue que q behind here => exact .queue que q behind (queues ▸ here)
      | recvBuf stage' t' behind here => exact .recvBuf stage' t' behind (workers ▸ here)
      | todo stage' t' port behind here => exact .todo stage' t' port behind (workers ▸ here)
      | sendBuf stage' t' port behind here => exact .sendBuf stage' t' port behind (workers ▸ here)
      | received here => exact .received (reorder ▸ here)
      | tree here => exact .tree (reorder ▸ here)
      | writing here => exact .writing (reorder ▸ here)
    · exact .inl (.recvBuf stage t behind (by rw [got]; exact List.mem_cons_of_mem _ here))
    · cases stage with
      | fragmentRefine => cases behind
      | deduplicate =>
        refine .inr ⟨rfl, idle, phase, done, recvBuf, ?_⟩
        rw [got]
        unfold Pipeline.process at here
        dsimp only at here
        cases hit : pipe.cache (input.sha1 received) with
        | none => simp_all
        | some entry => simp_all
      | compress =>
        refine .inl (.recvBuf .compress t rfl ?_)
        have same : chunk = received := (by simpa [Pipeline.process] using here : _ ∧ _).2
        rw [got, same]
        exact List.mem_cons_self
    · exact .inl (.sendBuf stage t port behind here)
  | dequeue idle phase done received some =>
    rcases past.setWorker with before | ⟨behind, here⟩ | ⟨port, behind, here | here⟩
    · rcases before.setQueue with before | ⟨behind, here⟩
      · exact .inl before
      · exact .inl (.queue _ _ behind (List.mem_of_mem_drop here))
    · exact .inl (.queue _ _ behind (List.mem_of_mem_take here))
    · exact .inl (.todo stage t port behind here)
    · exact .inl (.sendBuf stage t port behind here)
  | leave idle phase done received ended => exact .inl (past.kept rfl rfl rfl)
  | flush port idle phase rest => exact .inl (past.kept rfl rfl rfl)
  | terminate idle phase flushed =>
    rcases (past.kept rfl rfl rfl).setQueue with before | ⟨behind, here⟩
    · exact .inl before
    · exact .inl (.queue _ _ behind here)

/-- After a step of a thread a chunk that was on its way is compressed or still on its way. -/
theorem awaits (moves : WorkerStep setup input stage t pipe next) (inside : t < setup.nthreads)
    (awaits : Awaits setup pipe chunk) :
    next.compressed chunk = true ∨ Awaits setup next chunk := by
  cases moves with
  | enqueue port busy room =>
    refine .inr ?_
    have split := Queue.enqueue_split (pipe.queues (stage.output port) (setup.qid t))
      setup.queueSize (setup.insert stage) ((pipe.workers stage t).sendBuf port)
    generalize sent : (pipe.queues (stage.output port) (setup.qid t)).enqueue setup.queueSize
      (setup.insert stage) ((pipe.workers stage t).sendBuf port) = result at split ⊢
    have buf : result.2.buf = (pipe.queues (stage.output port) (setup.qid t)).buf ++
        ((pipe.workers stage t).sendBuf port).take
          ((pipe.queues (stage.output port) (setup.qid t)).moved setup.queueSize
            (setup.insert stage) ((pipe.workers stage t).sendBuf port)) := by
      rw [← sent]
      rfl
    rcases awaits.setQueue (stage.output port) (setup.qid t) result.2 with
      kept | ⟨before, known, here⟩
    · rcases kept.setWorker _ with after | ⟨before, here⟩ | ⟨port', before, here | here⟩
      · exact after
      · exact .recvBuf_self inside before here
      · exact .todo_self inside before here
      · by_cases same : port' = port
        · subst same
          rw [workers_setQueue, ← split] at here
          rcases List.mem_append.mp here with moved | left
          · exact .queue_self inside before (by
              rw [buf]
              exact List.mem_append_right _ moved)
          · exact .sendBuf_self inside before (by simpa using left)
        · exact .sendBuf_self inside before (by simpa [same] using here)
    · exact .queue_self inside before (by
        rw [buf]
        exact List.mem_append_left _ here)
  | insert port moved todo idle phase more =>
    refine .inr ?_
    rcases awaits.setWorker _ with after | ⟨before, here⟩ | ⟨port', before, here | here⟩
    · exact after
    · exact .recvBuf_self inside before here
    · rw [more] at here
      rcases List.mem_cons.mp here with same | later
      · obtain ⟨rfl, rfl⟩ := Prod.mk.inj same
        exact .sendBuf_self inside before (by simp)
      · exact .todo_self inside before later
    · by_cases same : port' = port
      · subst same
        exact .sendBuf_self inside before (by simp [here])
      · exact .sendBuf_self inside before (by simpa [same] using here)
  | process received recvBuf idle phase done got =>
    obtain ⟨queues, workers, -, -⟩ := Inv.process_same input pipe stage received
    have processed : Awaits setup (pipe.process input stage received).2 chunk :=
      awaits.congr queues workers
    rcases processed.setWorker _ with after | ⟨before, here⟩ | ⟨port', before, here | here⟩
    · exact .inr after
    · rw [workers, got] at here
      rcases List.mem_cons.mp here with rfl | later
      · -- the thread is one of `Compress`
        cases stage with
        | fragmentRefine => cases before
        | deduplicate => cases before
        | compress => exact .inl (Function.update_self _ _ _)
      · exact .inr (.recvBuf_self inside before later)
    · rw [workers, done] at here
      cases here
    · rw [workers] at here
      exact .inr (.sendBuf_self inside before here)
  | dequeue idle phase done received some =>
    refine .inr ?_
    rcases awaits.setQueue stage.input (setup.qid t)
        ((pipe.queues stage.input (setup.qid t)).dequeue (setup.fetch stage)).2 with
      kept | ⟨before, known, here⟩
    · rcases kept.setWorker _ with after | ⟨before, here⟩ | ⟨port', before, here | here⟩
      · exact after
      · rw [workers_setQueue, received] at here
        cases here
      · exact .todo_self inside before here
      · exact .sendBuf_self inside before here
    · rw [← List.take_append_drop (setup.fetch stage)
        (pipe.queues stage.input (setup.qid t)).buf] at here
      rcases List.mem_append.mp here with taken | left
      · exact .recvBuf_self inside before taken
      · exact .queue_self inside before left
  | leave idle phase done received ended => exact .inr (awaits.kept inside rfl rfl rfl)
  | flush port idle phase rest => exact .inr (awaits.kept inside rfl rfl rfl)
  | terminate idle phase flushed =>
    refine .inr ?_
    rcases awaits.setQueue (stage.output .main) (setup.qid t)
        (pipe.queues (stage.output .main) (setup.qid t)).terminate with
      kept | ⟨before, known, here⟩
    · exact kept.kept inside rfl rfl rfl
    · exact .queue_self inside before here

/-- What a step of a thread changes of the originals: a thread of `Deduplicate` registers the
chunk that it has received or refers to the original, the others change nothing of them. -/
theorem shared (moves : WorkerStep setup input stage t pipe next) (inside : t < setup.nthreads) :
    (next.cache = pipe.cache ∧ next.compressedDataRef = pipe.compressedDataRef ∧
      (∀ chunk, Past next chunk → Past pipe chunk) ∧
      ∀ chunk, pipe.compressed chunk = true → next.compressed chunk = true) ∨
    ∃ fresh, (∀ chunk, Past next chunk → Past pipe chunk ∨ chunk = fresh) ∧
      next.compressed = pipe.compressed ∧
      (pipe.cache (input.sha1 fresh) = none ∧
        next.cache = Function.update pipe.cache (input.sha1 fresh) (some fresh) ∧
        next.compressedDataRef = pipe.compressedDataRef ∧ Awaits setup next fresh ∨
      ∃ entry, pipe.cache (input.sha1 fresh) = some entry ∧ next.cache = pipe.cache ∧
        next.compressedDataRef =
          Function.update pipe.compressedDataRef fresh (some entry)) := by
  have past : ∀ chunk, Past next chunk → Past pipe chunk ∨ Deduplicates pipe stage t chunk :=
    fun chunk after => moves.past after
  have unchanged : (∀ chunk, ¬Deduplicates pipe stage t chunk) →
      ∀ chunk, Past next chunk → Past pipe chunk :=
    fun other chunk after => (past chunk after).resolve_right (other chunk)
  cases moves with
  | enqueue port busy room =>
    refine .inl ⟨rfl, rfl, unchanged ?_, fun chunk known => known⟩
    rintro chunk ⟨-, idle, -⟩
    rw [busy] at idle
    cases idle
  | insert port moved todo idle phase more =>
    refine .inl ⟨rfl, rfl, unchanged ?_, fun chunk known => known⟩
    rintro chunk ⟨-, -, -, done, -⟩
    rw [more] at done
    cases done
  | process received recvBuf idle phase done got =>
    have fresh : ∀ chunk, Deduplicates pipe stage t chunk → chunk = received := by
      rintro chunk ⟨-, -, -, -, rest, same⟩
      rw [got] at same
      exact (List.cons.inj same).1.symm
    cases stage with
    | fragmentRefine =>
      exact .inl ⟨rfl, rfl, unchanged (by rintro chunk ⟨⟨⟩, -⟩), fun chunk known => known⟩
    | deduplicate =>
      refine .inr ⟨received, fun chunk after => (past chunk after).imp_right (fresh chunk), ?_⟩
      cases hit : pipe.cache (input.sha1 received) with
      | none =>
        have before : Stage.output .deduplicate .main = .compress := rfl
        refine ⟨?_, .inl ⟨rfl, ?_, ?_, .todo_self inside before ?_⟩⟩
        all_goals simp [Pipeline.process, hit, Pipeline.setWorker]
      | some entry =>
        refine ⟨?_, .inr ⟨entry, rfl, ?_, ?_⟩⟩
        all_goals simp [Pipeline.process, hit, Pipeline.setWorker]
    | compress =>
      refine .inl ⟨rfl, rfl, unchanged (by rintro chunk ⟨⟨⟩, -⟩), fun chunk known => ?_⟩
      by_cases same : chunk = received
      · subst same
        exact Function.update_self _ _ _
      · exact (Function.update_of_ne same _ _).trans known
  | dequeue idle phase done received some =>
    refine .inl ⟨rfl, rfl, unchanged ?_, fun chunk known => known⟩
    rintro chunk ⟨-, -, -, -, rest, same⟩
    rw [received] at same
    cases same
  | leave idle phase done received ended =>
    refine .inl ⟨rfl, rfl, unchanged ?_, fun chunk known => known⟩
    rintro chunk ⟨-, -, -, -, rest, same⟩
    rw [received] at same
    cases same
  | flush port idle phase rest =>
    refine .inl ⟨rfl, rfl, unchanged ?_, fun chunk known => known⟩
    rintro chunk ⟨-, -, loops, -⟩
    rw [phase] at loops
    cases loops
  | terminate idle phase flushed =>
    refine .inl ⟨rfl, rfl, unchanged ?_, fun chunk known => known⟩
    rintro chunk ⟨-, -, loops, -⟩
    rw [phase] at loops
    cases loops

end WorkerStep

/-- The chunks of the tree after an insertion. -/
theorem mem_insertTree {other : Sequence} {tree : List Sequence}
    (here : other ∈ insertTree chunk tree) : other = chunk ∨ other ∈ tree := by
  induction tree with
  | nil => exact .inl (List.mem_singleton.mp here)
  | cons head tree ih =>
    unfold insertTree at here
    split at here
    · rcases List.mem_cons.mp here with rfl | later
      · exact .inr List.mem_cons_self
      · exact (ih later).imp_right (List.mem_cons_of_mem head)
    · exact List.mem_cons.mp here

/-- What `Reorder` has after it has written a chunk it had before. -/
theorem wrote_chunks (chunk : Sequence) (reorder : Reorderer) :
    (wrote chunk reorder).recvBuf = reorder.recvBuf ∧
    (∀ other ∈ (wrote chunk reorder).tree, other ∈ reorder.tree) ∧
    ∀ other, (wrote chunk reorder).writing = some other → other ∈ reorder.tree := by
  unfold wrote
  dsimp only
  split
  · rename_i head tree phase nonempty
    split_ifs
    all_goals simp [nonempty]
    all_goals exact fun other here => .inr here
  · exact ⟨rfl, fun other here => here, fun other none => by cases none⟩

/-- What `Reorder` has after it has taken a chunk from its receive buffer. -/
theorem received_chunks (input : Input κ) (chunk : Sequence) (recvBuf : List Sequence)
    {reorder : Reorderer} (idle : reorder.writing = none) :
    (received input chunk recvBuf reorder).recvBuf = recvBuf ∧
    (∀ other ∈ (received input chunk recvBuf reorder).tree,
      other = chunk ∨ other ∈ reorder.tree) ∧
    ∀ other, (received input chunk recvBuf reorder).writing = some other → other = chunk := by
  unfold received
  dsimp only
  by_cases turn : chunk = reorder.next
  · rw [if_pos turn]
    exact ⟨rfl, fun other here => .inr here, fun other same => (Option.some.inj same).symm⟩
  · rw [if_neg turn]
    refine ⟨rfl, fun other here => mem_insertTree here, fun other same => ?_⟩
    rw [idle] at same
    cases same

namespace Traced

/-- A step of `Fragment` is before `Deduplicate`. -/
theorem stepFragment (traced : Traced setup input pipe) (moves : FragmentStep setup pipe next) :
    Traced setup input next := by
  cases moves with
  | enqueue busy room =>
    -- the places do not know of `Fragment`
    have changed : Traced setup input (pipe.setQueue .refine pipe.fragment.qid
        ((pipe.queues .refine pipe.fragment.qid).enqueue setup.queueSize
          setup.anchorDataPerInsert pipe.fragment.sendBuf).2) :=
      traced.moved (fun chunk past => past.setQueue.resolve_right (by rintro ⟨⟨⟩, -⟩))
        (fun chunk awaits => .inr ((awaits.setQueue _ _ _).resolve_right (by rintro ⟨⟨⟩, -⟩)))
        rfl rfl fun chunk known => known
    exact changed.moved (fun chunk past => past.fragment)
      (fun chunk awaits => .inr (awaits.congr rfl rfl))
      rfl rfl fun chunk known => known
  | insert chunk todo idle more =>
    exact traced.moved (fun chunk past => past.fragment)
      (fun chunk awaits => .inr (awaits.congr rfl rfl))
      rfl rfl fun chunk known => known
  | flush idle done rest =>
    exact traced.moved (fun chunk past => past.fragment)
      (fun chunk awaits => .inr (awaits.congr rfl rfl))
      rfl rfl fun chunk known => known
  | terminate idle done flushed more =>
    have changed : Traced setup input (pipe.setQueue .refine pipe.fragment.terminated
        (pipe.queues .refine pipe.fragment.terminated).terminate) :=
      traced.moved (fun chunk past => past.setQueue.resolve_right (by rintro ⟨⟨⟩, -⟩))
        (fun chunk awaits => .inr ((awaits.setQueue _ _ _).resolve_right (by rintro ⟨⟨⟩, -⟩)))
        rfl rfl fun chunk known => known
    exact changed.moved (fun chunk past => past.fragment)
      (fun chunk awaits => .inr (awaits.congr rfl rfl))
      rfl rfl fun chunk known => known

/-- A change of `Reorder` that has no new chunks. -/
theorem setReorder (traced : Traced setup input pipe) (reorder : Reorderer)
    (recvBuf : ∀ chunk ∈ reorder.recvBuf, Past pipe chunk)
    (tree : ∀ chunk ∈ reorder.tree, Past pipe chunk)
    (writing : ∀ chunk, reorder.writing = some chunk → Past pipe chunk) :
    Traced setup input { pipe with reorder := reorder } := by
  refine traced.moved (fun chunk past => ?_)
    (fun chunk awaits => .inr (awaits.congr rfl rfl)) rfl rfl
    fun chunk known => known
  rcases past.setReorder with before | here | here | here
  · exact before
  · exact recvBuf chunk here
  · exact tree chunk here
  · exact writing chunk here

/-- A step of `Reorder` moves chunks that are behind `Deduplicate`. -/
theorem stepReorder (traced : Traced setup input pipe) (moves : ReorderStep setup input pipe next) :
    Traced setup input next := by
  cases moves with
  | write chunk busy ready =>
    obtain ⟨same, tree, writing⟩ := wrote_chunks chunk pipe.reorder
    exact traced.setReorder _ (fun other here => .received (same ▸ here))
      (fun other here => .tree (tree other here)) fun other here => .tree (writing other here)
  | receive chunk recvBuf idle phase got =>
    obtain ⟨same, tree, writing⟩ := received_chunks input chunk recvBuf idle
    have first : Past pipe chunk := .received (by rw [got]; exact List.mem_cons_self)
    refine traced.setReorder _ (fun other here => .received ?_) (fun other here => ?_)
      fun other here => ?_
    · rw [same] at here
      rw [got]
      exact List.mem_cons_of_mem _ here
    · rcases tree other here with rfl | before
      · exact first
      · exact .tree before
    · rw [writing other here]
      exact first
  | skip idle phase got ended =>
    exact traced.setReorder _ (fun chunk here => .received here) (fun chunk here => .tree here)
      fun chunk here => .writing here
  | dequeue idle phase got some =>
    refine traced.moved (fun chunk past => ?_) (fun chunk awaits => ?_) rfl rfl
      fun chunk known => known
    · rcases past.setReorder with before | here | here | here
      · rcases before.setQueue with before | ⟨behind, here⟩
        · exact before
        · exact .queue _ _ behind (List.mem_of_mem_drop here)
      · exact .queue .reorder _ rfl (List.mem_of_mem_take here)
      · exact .tree here
      · exact .writing here
    · have moved := (awaits.setQueue .reorder pipe.reorder.qid
        ((pipe.queues .reorder pipe.reorder.qid).dequeue setup.itemPerFetch).2).resolve_right
        (by rintro ⟨⟨⟩, -⟩)
      exact .inr (moved.congr rfl rfl)
  | take chunk tree idle phase left =>
    refine traced.setReorder _ (fun chunk here => .received here) (fun other here => .tree ?_)
      fun other same => .tree ?_
    · rw [left]
      exact List.mem_cons_of_mem _ here
    · obtain rfl := Option.some.inj same
      rw [left]
      exact List.mem_cons_self
  | finish idle phase =>
    exact traced.setReorder _ (fun chunk here => .received here) (fun chunk here => .tree here)
      fun chunk here => .writing here

variable [DecidableEq κ]

/-- A step of a thread moves chunks, registers a chunk or refers to an original. -/
theorem stepWorker (traced : Traced setup input pipe) (inside : t < setup.nthreads)
    (moves : WorkerStep setup input stage t pipe next) : Traced setup input next := by
  rcases moves.shared inside with ⟨cache, refs, past, compressed⟩ | ⟨fresh, past, compressed, hit⟩
  · exact traced.moved past (fun chunk awaits => moves.awaits inside awaits) cache refs compressed
  · -- the original of a chunk that was behind is still in the hash table
    rcases hit with ⟨none, cache, refs, awaits⟩ | ⟨entry, known, cache, refs⟩
    · have other : ∀ chunk entry, pipe.cache (input.sha1 chunk) = some entry →
          next.cache (input.sha1 chunk) = some entry := by
        intro chunk entry known
        have apart : input.sha1 chunk ≠ input.sha1 fresh := by
          intro same
          rw [same, none] at known
          cases known
        rw [cache, Function.update_of_ne apart]
        exact known
      have unreferred : pipe.compressedDataRef fresh = Option.none := by
        cases refers : pipe.compressedDataRef fresh with
        | none => rfl
        | some entry =>
          have known := traced.refs fresh entry refers
          rw [none] at known
          cases known
      exact {
        refs := fun chunk entry refers => by
          rw [refs] at refers
          exact other chunk entry (traced.refs chunk entry refers)
        known := fun chunk here => by
          rw [original, refs]
          rcases past chunk here with before | rfl
          · exact other chunk _ (traced.known chunk before)
          · rw [cache, unreferred, Function.update_self]
            rfl
        placed := fun key entry known => by
          rw [cache] at known
          by_cases same : key = input.sha1 fresh
          · rw [same, Function.update_self] at known
            obtain rfl := Option.some.inj known
            exact .inr awaits
          · rw [Function.update_of_ne same] at known
            rcases traced.placed key entry known with done | waits
            · exact .inl (compressed ▸ done)
            · exact moves.awaits inside waits }
    · exact {
        refs := fun chunk other refers => by
          rw [refs] at refers
          rw [cache]
          by_cases same : chunk = fresh
          · subst same
            rw [Function.update_self] at refers
            obtain rfl := Option.some.inj refers
            exact known
          · rw [Function.update_of_ne same] at refers
            exact traced.refs chunk other refers
        known := fun chunk here => by
          rw [original, refs, cache]
          by_cases same : chunk = fresh
          · subst same
            rw [Function.update_self]
            exact known
          · rw [Function.update_of_ne same]
            exact traced.known chunk ((past chunk here).resolve_right same)
        placed := fun key other registered => by
          rw [cache] at registered
          rcases traced.placed key other registered with done | waits
          · exact .inl (compressed ▸ done)
          · exact moves.awaits inside waits }

/-- Every step keeps what is known of the originals. -/
theorem step (traced : Traced setup input pipe) (moves : Step setup input pipe next) :
    Traced setup input next := by
  cases moves with
  | fragment moves => exact traced.stepFragment moves
  | worker stage t inside moves => exact traced.stepWorker inside moves
  | reorder moves => exact traced.stepReorder moves

omit [DecidableEq κ] in
/-- At the start nothing is known. -/
theorem start (setup : Setup) (input : Input κ) : Traced setup input (start setup input) where
  refs _ _ refers := by cases refers
  known chunk here := by
    cases here with
    | queue que q behind here => cases here
    | recvBuf stage t behind here => cases here
    | todo stage t port behind here => cases here
    | sendBuf stage t port behind here => cases here
    | received here => cases here
    | tree here => cases here
    | writing here => cases here
  placed _ _ known := by cases known

end Traced

variable [DecidableEq κ]

/-- What is known of the originals holds in every reachable state. -/
theorem Reached.traced (reached : Reached setup input pipe) : Traced setup input pipe := by
  apply Reachable.invariant ?_ ?_ reached
  · rintro _ rfl
    exact Traced.start setup input
  · rintro pipe next traced ⟨action, moves⟩
    exact traced.step (step_of_act moves)

end Pipeline

end P3arsec.Dedup.Pthreads
