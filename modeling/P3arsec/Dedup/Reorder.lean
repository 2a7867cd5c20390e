import P3arsec.Lib.Containers

/-!
# The reorder stage

`Reorder::svc` receives the fine chunks in any order and writes them in the order of their
two-level sequence numbers. A chunk that is not the next one is put into a search tree of
heaps, one heap for each coarse chunk; after the next one is written, as many chunks as
possible follow from the tree. The number of chunks of a coarse chunk is learnt from its last
chunk and kept in the array `chunks_per_anchor`. When a chunk arrives whose first-level number
is beyond the array, the array is doubled once, which is too little for a number from twice
its size on (`reorder_out_of_bounds`).
-/

namespace P3arsec.Dedup

open P3arsec.Lib

/-- `sequence_t`. -/
structure Sequence where
  /-- First level id. -/
  l1num : Nat
  /-- Second level id. -/
  l2num : Nat
  deriving DecidableEq, Repr

namespace Sequence

/-- `sequence_eq`. -/
def eq (s1 s2 : Sequence) : Bool := s1.l1num == s2.l1num && s1.l2num == s2.l2num

/-- `sequence_lt`. -/
def lt (s1 s2 : Sequence) : Prop :=
  if s1.l1num < s2.l1num then True else s1.l1num = s2.l1num ∧ s1.l2num < s2.l2num

/-- `sequence_inc_l1`. -/
def incL1 (s : Sequence) : Sequence := ⟨(s.l1num + 1) % 2 ^ 32, 0⟩

/-- `sequence_inc_l2`. -/
def incL2 (s : Sequence) : Sequence := ⟨s.l1num, (s.l2num + 1) % 2 ^ 32⟩

/-- `sequence_reset`. -/
def reset : Sequence := ⟨0, 0⟩

/-- The comparison finds equal sequence numbers. -/
@[simp] theorem eq_iff {s1 s2 : Sequence} : s1.eq s2 = true ↔ s1 = s2 := by
  cases s1
  cases s2
  simp [eq]

/-- Sequence numbers are compared by the coarse number first. -/
theorem lt_iff {s1 s2 : Sequence} :
    s1.lt s2 ↔ s1.l1num < s2.l1num ∨ s1.l1num = s2.l1num ∧ s1.l2num < s2.l2num := by
  unfold lt
  split <;> simp_all

end Sequence

/-- A fine chunk as the reorder stage sees it. -/
structure FineChunk where
  /-- Original location of the chunk in the input stream. -/
  sequence : Sequence
  /-- Whether this is the last fine chunk of its coarse chunk. -/
  isLastL2Chunk : Bool
  deriving DecidableEq, Repr

/-- The order of the heaps. -/
def FineChunk.rank (chunk : FineChunk) : ℕ ×ₗ ℕ :=
  toLex (chunk.sequence.l1num, chunk.sequence.l2num)

/-- Why the stage stops. -/
inductive Fault where
  /-- An access beyond the end of `chunks_per_anchor`. -/
  | outOfBounds
  /-- A failed assertion. -/
  | assertion
  /-- A null pointer or an empty heap is read. -/
  | nullPointer
  /-- `EXIT_TRACE` on a sequence number mismatch. -/
  | mismatch
  /-- The loop bound of the model is used up. -/
  | fuel
  deriving DecidableEq, Repr

/-- The functions of `tree.c` and `binheap.c`, which keep an ordered map of min-heaps. -/
structure Cache (Q T : Type) where
  /-- The heaps. -/
  heap : MinHeap FineChunk Q FineChunk.rank
  /-- The search tree. -/
  tree : OrderedMap Nat Q T

/-- The members of `Reorder`, with the chunks written so far. -/
structure Reorder (T : Type) where
  /-- The search tree. -/
  T : T
  /-- The next chunk to write. -/
  next : Sequence
  /-- Number of fine chunks of each coarse chunk, zero while not known. -/
  chunksPerAnchor : Nat → Nat
  /-- Length of the array. -/
  chunksPerAnchorMax : Nat
  /-- The calls of `write_chunk_to_file`. -/
  written : List FineChunk
  /-- Number of workers that have terminated. -/
  terminatedW : Nat

namespace Reorder

variable {Q T : Type} (cache : Cache Q T)

/-- The constructor. -/
def start : Reorder T := ⟨cache.tree.makeEmpty, .reset, fun _ => 0, 1024, [], 0⟩

/-- The length of the array after the growth step for a first-level number. -/
def grownMax (max l1num : Nat) : Nat := if l1num ≥ max then 2 * max % 2 ^ 32 else max

/-- Double the size of the array if necessary, and clear the new part. -/
def grow (chunk : FineChunk) (st : Reorder T) : Reorder T :=
  let max := st.chunksPerAnchorMax
  { st with
    chunksPerAnchor := fun i =>
      if chunk.sequence.l1num ≥ max ∧ max ≤ i ∧ i < 2 * max then 0 else st.chunksPerAnchor i
    chunksPerAnchorMax := grownMax max chunk.sequence.l1num }

/-- Update the expected second-level number. -/
def noteLast (chunk : FineChunk) (st : Reorder T) : Except Fault (Reorder T) :=
  let l1num := chunk.sequence.l1num
  if chunk.isLastL2Chunk then
    if st.chunksPerAnchorMax ≤ l1num then .error .outOfBounds
    else if st.chunksPerAnchor l1num ≠ 0 then .error .assertion
    else .ok { st with
      chunksPerAnchor := Function.update st.chunksPerAnchor l1num
        ((chunk.sequence.l2num + 1) % 2 ^ 32) }
  else .ok st

/-- Put a chunk into the local cache. -/
def insert (chunk : FineChunk) (st : Reorder T) : Reorder T :=
  let l1num := chunk.sequence.l1num
  match cache.tree.find l1num st.T with
  | none => { st with
      T := cache.tree.insert l1num (cache.heap.insert chunk cache.heap.create) st.T }
  | some queue => { st with
      T := cache.tree.update l1num (cache.heap.insert chunk queue) st.T }

/-- Write a chunk and move on to the next sequence number. -/
def write (chunk : FineChunk) (st : Reorder T) : Except Fault (Reorder T) :=
  let next := st.next.incL2
  let written := st.written ++ [chunk]
  if st.chunksPerAnchorMax ≤ next.l1num then .error .outOfBounds
  else if st.chunksPerAnchor next.l1num ≠ 0 ∧ next.l2num = st.chunksPerAnchor next.l1num then
    .ok { st with written := written, next := next.incL1 }
  else .ok { st with written := written, next := next }

/-- Take the next chunk out of the tree if the node at a position has it. The result is the
chunk, if any, the position for the next iteration and the new state. -/
def take (pos : Option Nat) (st : Reorder T) :
    Except Fault (Option FineChunk × Option Nat × Reorder T) :=
  match pos with
  | none => .ok (none, pos, st)
  | some l1num =>
    if l1num = st.next.l1num then
      match cache.tree.find l1num st.T with
      | none => .error .nullPointer
      | some queue =>
        match cache.heap.findMin queue with
        | none => .error .nullPointer
        | some chunk =>
          if chunk.sequence.eq st.next then
            let queue := cache.heap.deleteMin queue
            if cache.heap.isEmpty queue then
              let T := cache.tree.delete l1num st.T
              .ok (some chunk, cache.tree.findMin T, { st with T := T })
            else .ok (some chunk, pos, { st with T := cache.tree.update l1num queue st.T })
          else .ok (none, pos, st)
    else .ok (none, pos, st)

/-- Write as many chunks as possible, beginning with one that is next in sequence. -/
def drain : Nat → Option Nat → FineChunk → Reorder T → Except Fault (Reorder T)
  | 0, _, _, _ => .error .fuel
  | fuel + 1, pos, chunk, st => do
    let st ← write chunk st
    let (found, pos, st) ← take cache pos st
    match found with
    | some chunk => drain fuel pos chunk st
    | none => .ok st

/-- The body of the loop over the chunks of a buffer. -/
def receive (fuel : Nat) (st : Reorder T) (chunk : FineChunk) : Except Fault (Reorder T) := do
  let st ← noteLast chunk (grow chunk st)
  if chunk.sequence.eq st.next then drain cache fuel (cache.tree.findMin st.T) chunk st
  else .ok (insert cache chunk st)

/-- Flush the blocks left in the cache. -/
def flush : Nat → Option Nat → Reorder T → Except Fault (Reorder T)
  | _, none, st => .ok st
  | 0, some _, _ => .error .fuel
  | fuel + 1, some l1num, st => do
    let (found, pos, st) ← take cache (some l1num) st
    match found with
    | none => .error .mismatch
    | some chunk => do
      let st ← write chunk st
      flush fuel pos st

/-- `Reorder::svc` on a buffer of chunks and its mark. -/
def svc (fuel nw : Nat) (st : Reorder T) (task : List FineChunk × Bool) :
    Except Fault (Reorder T) := do
  let st ← task.1.foldlM (receive cache fuel) st
  let st := if task.2 then { st with terminatedW := st.terminatedW + 1 } else st
  if st.terminatedW = nw then flush cache fuel (cache.tree.findMin st.T) st else .ok st

end Reorder

/-- Number of fine chunks of a coarse chunk. -/
def total (anchors : List Nat) (l1num : Nat) : Nat := anchors.getD l1num 0

/-- The fine chunk with a sequence number. -/
def chunkAt (anchors : List Nat) (s : Sequence) : FineChunk :=
  ⟨s, s.l2num + 1 == total anchors s.l1num⟩

/-- The fine chunks before a sequence number, in order. -/
def before (anchors : List Nat) (next : Sequence) : List FineChunk :=
  ((List.range next.l1num).flatMap fun l1num =>
      (List.range (total anchors l1num)).map fun l2num => chunkAt anchors ⟨l1num, l2num⟩) ++
    (List.range next.l2num).map fun l2num => chunkAt anchors ⟨next.l1num, l2num⟩

/-- The complete set of fine chunks for the numbers of fine chunks of the coarse chunks, in
lexicographic order. -/
def complete (anchors : List Nat) : List FineChunk := before anchors ⟨anchors.length, 0⟩

/-- The sequence number after one whose chunk has been written. -/
def successor (anchors : List Nat) (s : Sequence) : Sequence :=
  if s.l2num + 1 = total anchors s.l1num then ⟨s.l1num + 1, 0⟩ else ⟨s.l1num, s.l2num + 1⟩

/-- A sequence number of the complete set. -/
def Valid (anchors : List Nat) (s : Sequence) : Prop :=
  s.l1num < anchors.length ∧ s.l2num < total anchors s.l1num

/-- A sequence number of the complete set, or the one after its end. -/
def Position (anchors : List Nat) (s : Sequence) : Prop :=
  Valid anchors s ∨ s = ⟨anchors.length, 0⟩

section Order

variable {anchors : List Nat}

/-- The written chunk extends the chunks before the next sequence number. -/
theorem before_successor (s : Sequence) :
    before anchors (successor anchors s) = before anchors s ++ [chunkAt anchors s] := by
  unfold successor
  split
  · rename_i last
    simp only [before, List.range_succ, List.flatMap_append, List.flatMap_singleton, ← last,
      List.map_append, List.map_singleton, List.range_zero, List.map_nil, List.append_nil,
      List.append_assoc]
  · simp only [before, List.range_succ, List.map_append, List.map_singleton, List.append_assoc]

/-- The chunks of complete anchors are the valid ones. -/
theorem mem_complete {chunk : FineChunk} :
    chunk ∈ complete anchors ↔
      Valid anchors chunk.sequence ∧ chunk = chunkAt anchors chunk.sequence := by
  simp only [complete, before, List.range_zero, List.map_nil, List.append_nil, List.mem_flatMap,
    List.mem_map, List.mem_range, Valid]
  constructor
  · intro ⟨l1num, bound, l2num, bound', same⟩
    rw [← same]
    exact ⟨⟨bound, bound'⟩, rfl⟩
  · intro ⟨⟨bound, bound'⟩, same⟩
    exact ⟨_, bound, _, bound', same.symm⟩

/-- The number after a valid one is valid or the end. -/
theorem position_successor (positive : ∀ count ∈ anchors, 0 < count) {s : Sequence}
    (valid : Valid anchors s) : Position anchors (successor anchors s) := by
  obtain ⟨bound, bound'⟩ := valid
  unfold successor
  split
  · rcases Nat.lt_or_ge (s.l1num + 1) anchors.length with more | done
    · refine Or.inl ⟨more, ?_⟩
      have member : total anchors (s.l1num + 1) ∈ anchors := by
        simp [total, more]
      exact positive _ member
    · have last : s.l1num + 1 = anchors.length := by omega
      exact Or.inr (by rw [last])
  · rename_i inner
    refine Or.inl ⟨bound, ?_⟩
    change s.l2num + 1 < total anchors s.l1num
    omega

/-- No valid number lies between a number and its successor. -/
theorem lt_iff_not_lt_successor {s other : Sequence} (valid : Valid anchors s)
    (valid' : Valid anchors other) : s.lt other ↔ ¬other.lt (successor anchors s) := by
  obtain ⟨_, bound⟩ := valid
  obtain ⟨_, bound'⟩ := valid'
  simp only [Sequence.lt_iff, successor]
  by_cases same : s.l1num = other.l1num
  · rw [same] at bound ⊢
    split
    · dsimp only
      omega
    · dsimp only
      omega
  · split
    · dsimp only
      omega
    · dsimp only
      omega

/-- Sequence numbers are ordered. -/
theorem Sequence.lt_or_eq_or_gt (s other : Sequence) : s.lt other ∨ s = other ∨ other.lt s := by
  cases s
  cases other
  simp only [Sequence.lt_iff, Sequence.mk.injEq]
  omega

/-- A sequence number is not below itself. -/
theorem Sequence.lt_irrefl (s : Sequence) : ¬s.lt s := by
  rw [Sequence.lt_iff]
  omega

end Order

/-- The complete set is in increasing lexicographic order, without repetitions. -/
theorem complete_sorted (anchors : List Nat) :
    (complete anchors).Pairwise fun chunk other => chunk.sequence.lt other.sequence := by
  simp only [complete, before, List.range_zero, List.map_nil, List.append_nil]
  rw [List.pairwise_flatMap]
  constructor
  · intro l1num _
    rw [List.pairwise_map]
    refine List.pairwise_lt_range.imp fun below => ?_
    rw [Sequence.lt_iff]
    exact Or.inr ⟨rfl, below⟩
  · refine List.pairwise_lt_range.imp fun below chunk member other member' => ?_
    obtain ⟨_, _, rfl⟩ := List.mem_map.mp member
    obtain ⟨_, _, rfl⟩ := List.mem_map.mp member'
    rw [Sequence.lt_iff]
    exact Or.inl below

/-- The complete set has no repetitions. -/
theorem complete_nodup (anchors : List Nat) : (complete anchors).Nodup := by
  refine (complete_sorted anchors).imp fun {chunk other} below same => ?_
  rw [same] at below
  exact Sequence.lt_irrefl _ below

/-- The chunks of one coarse chunk. -/
def ofAnchor (l1num : Nat) (waiting : Multiset FineChunk) : Multiset FineChunk :=
  waiting.filter fun chunk => chunk.sequence.l1num = l1num

/-- The waiting chunks of an anchor. -/
theorem mem_ofAnchor {l1num : Nat} {waiting : Multiset FineChunk} {chunk : FineChunk} :
    chunk ∈ ofAnchor l1num waiting ↔ chunk ∈ waiting ∧ chunk.sequence.l1num = l1num :=
  Multiset.mem_filter

/-- One more waiting chunk. -/
theorem ofAnchor_cons (l1num : Nat) (chunk : FineChunk) (waiting : Multiset FineChunk) :
    ofAnchor l1num (chunk ::ₘ waiting) =
      if chunk.sequence.l1num = l1num then chunk ::ₘ ofAnchor l1num waiting
      else ofAnchor l1num waiting := by
  unfold ofAnchor
  split
  · rename_i same
    exact Multiset.filter_cons_of_pos waiting same
  · rename_i distinct
    exact Multiset.filter_cons_of_neg waiting distinct

namespace Cache

variable {Q T : Type} (cache : Cache Q T)

/-- The chunks in a heap, none if there is no heap. -/
def contentOf : Option Q → Multiset FineChunk
  | none => 0
  | some queue => cache.heap.content queue

/-- The tree holds some chunks: each in the heap of its coarse chunk, and no heap is empty. -/
structure Holds (tree : T) (waiting : Multiset FineChunk) : Prop where
  /-- A heap has the chunks of its coarse chunk. -/
  content : ∀ l1num, cache.contentOf (cache.tree.find l1num tree) = ofAnchor l1num waiting
  /-- A node of the tree has chunks. -/
  inhabited : ∀ l1num queue, cache.tree.find l1num tree = some queue →
    cache.heap.content queue ≠ 0

variable {cache}

/-- The empty tree holds nothing. -/
theorem holds_makeEmpty : cache.Holds cache.tree.makeEmpty 0 := by
  constructor
  · intro l1num
    rw [cache.tree.find_makeEmpty]
    rfl
  · intro l1num queue found
    rw [cache.tree.find_makeEmpty] at found
    cases found

/-- A chunk that waits is in the heap of a node. -/
theorem Holds.present {tree : T} {waiting : Multiset FineChunk} (holds : cache.Holds tree waiting)
    {chunk : FineChunk} (member : chunk ∈ waiting) :
    cache.tree.find chunk.sequence.l1num tree ≠ none := by
  intro missing
  have content := holds.content chunk.sequence.l1num
  have inside : chunk ∈ ofAnchor chunk.sequence.l1num waiting := mem_ofAnchor.mpr ⟨member, rfl⟩
  rw [← content, missing] at inside
  exact Multiset.notMem_zero chunk inside

/-- A tree that holds nothing has no node. -/
theorem Holds.empty {tree : T} (holds : cache.Holds tree 0) (l1num : Nat) :
    cache.tree.find l1num tree = none := by
  cases found : cache.tree.find l1num tree with
  | none => rfl
  | some queue =>
    have content := holds.content l1num
    rw [found] at content
    exact absurd content (holds.inhabited l1num queue found)

/-- A tree that holds nothing has no least node. -/
theorem Holds.findMin {tree : T} (holds : cache.Holds tree 0) :
    cache.tree.findMin tree = none := by
  cases least : cache.tree.findMin tree with
  | none => rfl
  | some l1num => exact absurd (holds.empty l1num) (cache.tree.findMin_some tree l1num least).1

/-- A tree is changed at one coarse chunk: the heap there gets the chunks of the new set, and
the new set has the same chunks of every other coarse chunk. -/
theorem Holds.change {tree tree' : T} {waiting waiting' : Multiset FineChunk} {l1num : Nat}
    {value : Option Q} (holds : cache.Holds tree waiting)
    (find : ∀ other, cache.tree.find other tree' =
      if other = l1num then value else cache.tree.find other tree)
    (others : ∀ other, other ≠ l1num → ofAnchor other waiting' = ofAnchor other waiting)
    (here : cache.contentOf value = ofAnchor l1num waiting')
    (inhabited : ∀ queue, value = some queue → cache.heap.content queue ≠ 0) :
    cache.Holds tree' waiting' := by
  constructor
  · intro other
    rw [find]
    by_cases same : other = l1num
    · rw [if_pos same, same, here]
    · rw [if_neg same, others other same, holds.content other]
  · intro other queue found
    rw [find] at found
    by_cases same : other = l1num
    · rw [if_pos same] at found
      exact inhabited queue found
    · rw [if_neg same] at found
      exact holds.inhabited other queue found

end Cache

namespace Reorder

variable {Q T : Type} {cache : Cache Q T} {anchors : List Nat}

/-- A chunk that is put into the cache joins the chunks that wait there. -/
theorem insert_spec (chunk : FineChunk) (st : Reorder T) {waiting : Multiset FineChunk}
    (holds : cache.Holds st.T waiting) :
    ∃ tree, insert cache chunk st = { st with T := tree } ∧
      cache.Holds tree (chunk ::ₘ waiting) := by
  have others : ∀ other, other ≠ chunk.sequence.l1num →
      ofAnchor other (chunk ::ₘ waiting) = ofAnchor other waiting := by
    intro other distinct
    rw [ofAnchor_cons, if_neg (Ne.symm distinct)]
  have content := holds.content chunk.sequence.l1num
  unfold insert
  dsimp only
  cases found : cache.tree.find chunk.sequence.l1num st.T with
  | none =>
    rw [found] at content
    refine ⟨cache.tree.insert chunk.sequence.l1num (cache.heap.insert chunk cache.heap.create) st.T,
      rfl, holds.change (fun other => cache.tree.find_insert _ _ _ other found) others ?_ ?_⟩
    · rw [ofAnchor_cons, if_pos rfl, ← content]
      simp only [Cache.contentOf, cache.heap.content_insert, cache.heap.content_create]
    · intro queue same
      obtain rfl := Option.some.inj same
      simp [cache.heap.content_insert]
  | some queue =>
    rw [found] at content
    have present : cache.tree.find chunk.sequence.l1num st.T ≠ none := by simp [found]
    refine ⟨cache.tree.update chunk.sequence.l1num (cache.heap.insert chunk queue) st.T,
      rfl, holds.change (fun other => cache.tree.find_update _ _ _ other present) others ?_ ?_⟩
    · rw [ofAnchor_cons, if_pos rfl, ← content]
      simp only [Cache.contentOf, cache.heap.content_insert]
    · intro queue same
      obtain rfl := Option.some.inj same
      simp [cache.heap.content_insert]

/-- When no waiting chunk is below the next number, the position at the least node finds the
next chunk if it waits, and leaves the state as it is otherwise. -/
theorem take_spec (st : Reorder T) {waiting : Multiset FineChunk}
    (holds : cache.Holds st.T waiting) (above : ∀ chunk ∈ waiting, ¬chunk.sequence.lt st.next) :
    (∃ chunk rest tree, waiting = chunk ::ₘ rest ∧ chunk.sequence = st.next ∧
      take cache (cache.tree.findMin st.T) st =
        .ok (some chunk, cache.tree.findMin tree, { st with T := tree }) ∧
      cache.Holds tree rest) ∨
    (∀ chunk ∈ waiting, chunk.sequence ≠ st.next) ∧
      ∃ pos, take cache (cache.tree.findMin st.T) st = .ok (none, pos, st) := by
  cases least : cache.tree.findMin st.T with
  | none =>
    refine Or.inr ⟨fun chunk member _ => ?_, none, rfl⟩
    exact holds.present member (cache.tree.findMin_none st.T least _)
  | some l1num =>
    obtain ⟨found, lowest⟩ := cache.tree.findMin_some st.T l1num least
    unfold take
    dsimp only
    by_cases here : l1num = st.next.l1num
    · subst here
      rw [if_pos rfl]
      cases queueEq : cache.tree.find st.next.l1num st.T with
      | none => exact absurd queueEq found
      | some queue =>
        have content := holds.content st.next.l1num
        rw [queueEq, Cache.contentOf] at content
        obtain ⟨chunk, first, split, smallest⟩ :=
          cache.heap.findMin_spec queue (holds.inhabited _ queue queueEq)
        have own : chunk ∈ ofAnchor st.next.l1num waiting := by
          rw [← content, split]
          exact Multiset.mem_cons_self chunk _
        obtain ⟨member, anchor⟩ := mem_ofAnchor.mp own
        simp only [first, Sequence.eq_iff]
        by_cases same : chunk.sequence = st.next
        · rw [if_pos same]
          obtain ⟨rest, rfl⟩ := Multiset.exists_cons_of_mem member
          rw [ofAnchor_cons, if_pos anchor, split, Multiset.cons_inj_right] at content
          have others : ∀ other, other ≠ st.next.l1num →
              ofAnchor other rest = ofAnchor other (chunk ::ₘ rest) := by
            intro other distinct
            rw [ofAnchor_cons, if_neg]
            rw [anchor]
            exact Ne.symm distinct
          left
          by_cases emptied : cache.heap.isEmpty (cache.heap.deleteMin queue) = true
          · rw [if_pos emptied]
            refine ⟨chunk, rest, cache.tree.delete st.next.l1num st.T, rfl, same, rfl,
              holds.change (fun other => cache.tree.find_delete _ _ other) others ?_ ?_⟩
            · rw [← content]
              exact ((cache.heap.isEmpty_iff _).mp emptied).symm
            · intro _ impossible
              cases impossible
          · rw [if_neg emptied]
            refine ⟨chunk, rest, cache.tree.update st.next.l1num (cache.heap.deleteMin queue) st.T,
              rfl, same, ?_, holds.change
                (fun other => cache.tree.find_update _ _ _ other found) others content ?_⟩
            · rw [cache.tree.findMin_update found, least]
            · intro other isQueue
              obtain rfl := Option.some.inj isQueue
              exact fun nothing => emptied ((cache.heap.isEmpty_iff _).mpr nothing)
        · rw [if_neg same]
          refine Or.inr ⟨fun other inside equal => same ?_, some st.next.l1num, rfl⟩
          have inHeap : other ∈ cache.heap.content queue := by
            rw [content]
            exact mem_ofAnchor.mpr ⟨inside, by rw [equal]⟩
          have lower := smallest other inHeap
          have notBelow := above chunk member
          rw [Sequence.lt_iff] at notBelow
          unfold FineChunk.rank at lower
          rw [Prod.Lex.toLex_le_toLex] at lower
          rw [equal] at lower
          have second : chunk.sequence.l2num = st.next.l2num := by
            dsimp only at lower
            omega
          exact Sequence.eq_iff.mp (by simp [Sequence.eq, anchor, second])
    · rw [if_neg here]
      refine Or.inr ⟨fun chunk member equal => here ?_, some l1num, rfl⟩
      have below := lowest _ (holds.present member)
      -- The least node has a chunk, and that chunk is not below the next number.
      cases queueEq : cache.tree.find l1num st.T with
      | none => exact absurd queueEq found
      | some queue =>
        obtain ⟨other, inHeap⟩ :=
          Multiset.exists_mem_of_ne_zero (holds.inhabited _ queue queueEq)
        have content := holds.content l1num
        rw [queueEq, Cache.contentOf] at content
        rw [content] at inHeap
        obtain ⟨inside, anchor⟩ := mem_ofAnchor.mp inHeap
        have notBelow := above other inside
        rw [Sequence.lt_iff] at notBelow
        rw [equal] at below
        omega

/-- What holds between the steps of the stage: the chunks before the next one are written, the
chunks that have arrived and lie behind it wait in the tree, and the array knows the coarse
chunks whose last chunk has arrived. -/
structure Inv (cache : Cache Q T) (anchors : List Nat) (arrived : List FineChunk)
    (waiting : Multiset FineChunk) (st : Reorder T) : Prop where
  /-- Only chunks of the complete set arrive. -/
  known : ∀ chunk ∈ arrived, chunk ∈ complete anchors
  /-- The chunks before the next one are written in order. -/
  written : st.written = before anchors st.next
  /-- The next number is in range. -/
  position : Position anchors st.next
  /-- The chunks before the next one have arrived. -/
  past : ∀ s, Valid anchors s → s.lt st.next → chunkAt anchors s ∈ arrived
  /-- The array has an entry for every chunk that has arrived. -/
  room : ∀ chunk ∈ arrived, chunk.sequence.l1num < st.chunksPerAnchorMax
  /-- The length of the array is an `unsigned int`. -/
  limit : st.chunksPerAnchorMax < 2 ^ 32
  /-- The last chunk of a coarse chunk tells its number of chunks. -/
  counted : ∀ chunk ∈ arrived, chunk.isLastL2Chunk = true →
    st.chunksPerAnchor chunk.sequence.l1num = total anchors chunk.sequence.l1num
  /-- Without the last chunk the number is not known. -/
  uncounted : ∀ l1num < st.chunksPerAnchorMax,
    (∀ chunk ∈ arrived, chunk.sequence.l1num = l1num → chunk.isLastL2Chunk = false) →
      st.chunksPerAnchor l1num = 0
  /-- The tree holds the waiting chunks. -/
  holds : cache.Holds st.T waiting
  /-- A chunk waits once. -/
  nodup : waiting.Nodup
  /-- The waiting chunks are those that have arrived and lie behind the next one. -/
  waits : ∀ chunk, chunk ∈ waiting ↔ chunk ∈ arrived ∧ st.next.lt chunk.sequence

variable {arrived : List FineChunk} {waiting : Multiset FineChunk} {st : Reorder T}

/-- A chunk of the complete set is determined by its number. -/
theorem eq_of_sequence {chunk other : FineChunk} (known : chunk ∈ complete anchors)
    (known' : other ∈ complete anchors) (same : chunk.sequence = other.sequence) :
    chunk = other := by
  rw [(mem_complete.mp known).2, (mem_complete.mp known').2, same]

/-- The constructor's state. -/
theorem inv_start (cache : Cache Q T) (positive : ∀ count ∈ anchors, 0 < count) :
    Inv cache anchors [] 0 (start cache) where
  known _ member := absurd member List.not_mem_nil
  written := rfl
  position := by
    cases anchors with
    | nil => exact Or.inr rfl
    | cons count rest =>
      exact Or.inl ⟨Nat.succ_pos _, positive count List.mem_cons_self⟩
  past s _ below := by
    rw [Sequence.lt_iff] at below
    simp [start, Sequence.reset] at below
  room _ member := absurd member List.not_mem_nil
  limit := by norm_num [start]
  counted _ member := absurd member List.not_mem_nil
  uncounted _ _ _ := rfl
  holds := Cache.holds_makeEmpty
  nodup := Multiset.nodup_zero
  waits _ := by simp

/-- Writing the next chunk moves on to its successor. -/
theorem write_spec (small : ∀ l1num, total anchors l1num < 2 ^ 32)
    (inv : Inv cache anchors arrived waiting st) (valid : Valid anchors st.next)
    (here : chunkAt anchors st.next ∈ arrived) :
    write (chunkAt anchors st.next) st = .ok { st with
      written := st.written ++ [chunkAt anchors st.next]
      next := successor anchors st.next } := by
  have inRoom : st.next.l1num < st.chunksPerAnchorMax := inv.room _ here
  have bound := valid.2
  have limit := inv.limit
  have representable := small st.next.l1num
  have second : (st.next.l2num + 1) % 2 ^ 32 = st.next.l2num + 1 := Nat.mod_eq_of_lt (by omega)
  have first : (st.next.l1num + 1) % 2 ^ 32 = st.next.l1num + 1 := Nat.mod_eq_of_lt (by omega)
  simp only [write, Sequence.incL2, Sequence.incL1, Nat.not_le.mpr inRoom, if_false, second, first,
    successor]
  by_cases last : st.next.l2num + 1 = total anchors st.next.l1num
  · have known : st.chunksPerAnchor st.next.l1num = total anchors st.next.l1num :=
      inv.counted _ here (by simpa [chunkAt] using last)
    rw [if_pos ⟨by omega, by omega⟩, if_pos last]
  · have inner : ¬(st.chunksPerAnchor st.next.l1num ≠ 0 ∧
        st.next.l2num + 1 = st.chunksPerAnchor st.next.l1num) := by
      intro ⟨nonzero, same⟩
      by_cases arrivedLast : ∀ chunk ∈ arrived, chunk.sequence.l1num = st.next.l1num →
          chunk.isLastL2Chunk = false
      · exact nonzero (inv.uncounted _ inRoom arrivedLast)
      · simp only [not_forall, Bool.not_eq_false] at arrivedLast
        obtain ⟨chunk, member, anchor, isLast⟩ := arrivedLast
        have known := inv.counted chunk member isLast
        rw [anchor] at known
        omega
    rw [if_neg inner, if_neg last]

/-- What the stage knows after a chunk is written and before it looks for the next one. -/
theorem waits_successor (inv : Inv cache anchors arrived waiting st)
    (valid : Valid anchors st.next) (chunk : FineChunk) :
    chunk ∈ waiting ↔ chunk ∈ arrived ∧ ¬chunk.sequence.lt (successor anchors st.next) := by
  rw [inv.waits]
  apply and_congr_right
  intro member
  exact lt_iff_not_lt_successor valid (mem_complete.mp (inv.known chunk member)).1

/-- The state after a chunk is written keeps the invariant for the chunks that still wait. -/
theorem inv_write (positive : ∀ count ∈ anchors, 0 < count)
    (inv : Inv cache anchors arrived waiting st) (valid : Valid anchors st.next)
    (here : chunkAt anchors st.next ∈ arrived) {tree : T} {rest : Multiset FineChunk}
    (holds : cache.Holds tree rest) (nodup : rest.Nodup)
    (waits : ∀ chunk, chunk ∈ rest ↔
      chunk ∈ arrived ∧ (successor anchors st.next).lt chunk.sequence) :
    Inv cache anchors arrived rest { st with
      T := tree
      written := st.written ++ [chunkAt anchors st.next]
      next := successor anchors st.next } where
  known := inv.known
  written := by
    rw [inv.written]
    exact (before_successor st.next).symm
  position := position_successor positive valid
  past s inside below := by
    rcases Sequence.lt_or_eq_or_gt s st.next with earlier | rfl | later
    · exact inv.past s inside earlier
    · exact here
    · exact absurd below ((lt_iff_not_lt_successor valid inside).mp later)
  room := inv.room
  limit := inv.limit
  counted := inv.counted
  uncounted := inv.uncounted
  holds := holds
  nodup := nodup
  waits := waits

/-- The loop that writes from the tree ends with every chunk written that can be. -/
theorem drain_spec (positive : ∀ count ∈ anchors, 0 < count)
    (small : ∀ l1num, total anchors l1num < 2 ^ 32) (fuel : Nat)
    {waiting : Multiset FineChunk} {st : Reorder T}
    (inv : Inv cache anchors arrived waiting st) (valid : Valid anchors st.next)
    (here : chunkAt anchors st.next ∈ arrived) (enough : waiting.card < fuel) :
    ∃ rest last, drain cache fuel (cache.tree.findMin st.T) (chunkAt anchors st.next) st =
        .ok last ∧ Inv cache anchors arrived rest last ∧
      (∀ chunk ∈ arrived, chunk.sequence ≠ last.next) ∧
      last.chunksPerAnchorMax = st.chunksPerAnchorMax ∧ last.terminatedW = st.terminatedW := by
  induction fuel generalizing waiting st with
  | zero => exact absurd enough (Nat.not_lt_zero _)
  | succ fuel ih =>
    have behind := waits_successor inv valid
    have above : ∀ chunk ∈ waiting, ¬chunk.sequence.lt (successor anchors st.next) :=
      fun chunk member => ((behind chunk).mp member).2
    simp only [drain, write_spec small inv valid here, bind, Except.bind]
    rcases take_spec { st with
        written := st.written ++ [chunkAt anchors st.next]
        next := successor anchors st.next } inv.holds above with
      ⟨chunk, rest, tree, split, same, taken, kept⟩ | ⟨missing, pos, taken⟩
    · have nodup := inv.nodup
      rw [split, Multiset.nodup_cons] at nodup
      have member : chunk ∈ arrived := by
        apply ((behind chunk).mp _).1
        rw [split]
        exact Multiset.mem_cons_self chunk rest
      obtain ⟨inside, own⟩ := mem_complete.mp (inv.known chunk member)
      have waits : ∀ other, other ∈ rest ↔
          other ∈ arrived ∧ (successor anchors st.next).lt other.sequence := by
        intro other
        constructor
        · intro inRest
          have waited := (behind other).mp (by rw [split]; exact Multiset.mem_cons_of_mem inRest)
          refine ⟨waited.1, ?_⟩
          rcases Sequence.lt_or_eq_or_gt (successor anchors st.next) other.sequence with
            later | equal | earlier
          · exact later
          · have repeated := eq_of_sequence (inv.known other waited.1) (inv.known chunk member)
              (equal.symm.trans same.symm)
            rw [repeated] at inRest
            exact absurd inRest nodup.1
          · exact absurd earlier waited.2
        · intro ⟨inArrived, later⟩
          have waited : other ∈ waiting := by
            refine (behind other).mpr ⟨inArrived, fun earlier => ?_⟩
            rw [Sequence.lt_iff] at earlier later
            omega
          rw [split, Multiset.mem_cons] at waited
          rcases waited with rfl | inRest
          · change other.sequence = successor anchors st.next at same
            rw [same] at later
            exact absurd later (Sequence.lt_irrefl _)
          · exact inRest
      change chunk.sequence = successor anchors st.next at same
      have next := inv_write positive inv valid here kept nodup.2 waits
      rw [same] at inside own
      rw [taken, own]
      refine ih next inside ?_ ?_
      · rw [own] at member
        exact member
      · rw [split, Multiset.card_cons] at enough
        exact Nat.lt_of_succ_lt_succ enough
    · have waits : ∀ other, other ∈ waiting ↔
          other ∈ arrived ∧ (successor anchors st.next).lt other.sequence := by
        intro other
        constructor
        · intro waited
          obtain ⟨inArrived, notEarlier⟩ := (behind other).mp waited
          refine ⟨inArrived, ?_⟩
          rcases Sequence.lt_or_eq_or_gt (successor anchors st.next) other.sequence with
            later | equal | earlier
          · exact later
          · exact absurd equal.symm (missing other waited)
          · exact absurd earlier notEarlier
        · intro ⟨inArrived, later⟩
          refine (behind other).mpr ⟨inArrived, fun earlier => ?_⟩
          rw [Sequence.lt_iff] at earlier later
          omega
      rw [taken]
      refine ⟨waiting, _, rfl, inv_write positive inv valid here inv.holds inv.nodup waits,
        fun chunk member equal => ?_, rfl, rfl⟩
      refine missing chunk ((behind chunk).mpr ⟨member, ?_⟩) equal
      change chunk.sequence = successor anchors st.next at equal
      rw [equal]
      exact Sequence.lt_irrefl _

/-- Each arriving chunk finds room: after the growth step the array has an entry for its
first-level number. -/
def Fits : Nat → List FineChunk → Prop
  | _, [] => True
  | max, chunk :: rest =>
    chunk.sequence.l1num < grownMax max chunk.sequence.l1num ∧
      Fits (grownMax max chunk.sequence.l1num) rest

instance decidableFits : (max : Nat) → (chunks : List FineChunk) → Decidable (Fits max chunks)
  | _, [] => isTrue trivial
  | max, chunk :: rest =>
    have := decidableFits (grownMax max chunk.sequence.l1num) rest
    inferInstanceAs (Decidable (_ ∧ _))

/-- The growth of the array keeps the tree. -/
@[simp] theorem grow_T (chunk : FineChunk) (st : Reorder T) : (grow chunk st).T = st.T := rfl

/-- The growth of the array keeps the next sequence number. -/
@[simp] theorem grow_next (chunk : FineChunk) (st : Reorder T) :
    (grow chunk st).next = st.next := rfl

/-- The growth of the array writes nothing. -/
@[simp] theorem grow_written (chunk : FineChunk) (st : Reorder T) :
    (grow chunk st).written = st.written := rfl

/-- The growth of the array ends no worker. -/
@[simp] theorem grow_terminatedW (chunk : FineChunk) (st : Reorder T) :
    (grow chunk st).terminatedW = st.terminatedW := rfl

/-- The array is doubled once. -/
@[simp] theorem grow_chunksPerAnchorMax (chunk : FineChunk) (st : Reorder T) :
    (grow chunk st).chunksPerAnchorMax =
      grownMax st.chunksPerAnchorMax chunk.sequence.l1num := rfl

/-- The growth step changes no entry of a coarse chunk that has a chunk. -/
theorem inv_grow (inv : Inv cache anchors arrived waiting st) (chunk : FineChunk)
    (room : chunk.sequence.l1num < grownMax st.chunksPerAnchorMax chunk.sequence.l1num) :
    Inv cache anchors arrived waiting (grow chunk st) := by
  have limit := inv.limit
  have sizes : st.chunksPerAnchorMax ≤ grownMax st.chunksPerAnchorMax chunk.sequence.l1num ∧
      grownMax st.chunksPerAnchorMax chunk.sequence.l1num < 2 ^ 32 ∧
      (st.chunksPerAnchorMax < grownMax st.chunksPerAnchorMax chunk.sequence.l1num →
        st.chunksPerAnchorMax ≤ chunk.sequence.l1num ∧
          grownMax st.chunksPerAnchorMax chunk.sequence.l1num ≤ 2 * st.chunksPerAnchorMax) := by
    unfold grownMax at room ⊢
    have remainder := Nat.mod_le (2 * st.chunksPerAnchorMax) (2 ^ 32)
    have bounded := Nat.mod_lt (2 * st.chunksPerAnchorMax) (show 2 ^ 32 > 0 by norm_num)
    split at room
    · rw [if_pos ‹_›]
      omega
    · rw [if_neg ‹_›]
      omega
  obtain ⟨larger, bounded, doubled⟩ := sizes
  exact {
    known := inv.known
    written := inv.written
    position := inv.position
    past := inv.past
    room := fun other member => lt_of_lt_of_le (inv.room other member) larger
    limit := bounded
    counted := by
      intro other member isLast
      have inside := inv.room other member
      have old : ¬(chunk.sequence.l1num ≥ st.chunksPerAnchorMax ∧
          st.chunksPerAnchorMax ≤ other.sequence.l1num ∧
          other.sequence.l1num < 2 * st.chunksPerAnchorMax) := by omega
      change (if _ then 0 else _) = _
      rw [if_neg old]
      exact inv.counted other member isLast
    uncounted := by
      intro l1num inside none
      change l1num < grownMax st.chunksPerAnchorMax chunk.sequence.l1num at inside
      change (if _ then 0 else _) = _
      split
      · rfl
      · rename_i old
        exact inv.uncounted l1num (by omega) none
    holds := inv.holds
    nodup := inv.nodup
    waits := inv.waits }

/-- The last chunk of a coarse chunk finds its entry clear and fills it. -/
theorem noteLast_spec (small : ∀ l1num, total anchors l1num < 2 ^ 32)
    (inv : Inv cache anchors arrived waiting st) {chunk : FineChunk}
    (known : chunk ∈ complete anchors) (fresh : chunk ∉ arrived)
    (room : chunk.sequence.l1num < st.chunksPerAnchorMax) :
    ∃ counts, noteLast chunk st = .ok { st with chunksPerAnchor := counts } ∧
      (∀ other ∈ chunk :: arrived, other.isLastL2Chunk = true →
        counts other.sequence.l1num = total anchors other.sequence.l1num) ∧
      (∀ l1num < st.chunksPerAnchorMax,
        (∀ other ∈ chunk :: arrived, other.sequence.l1num = l1num → other.isLastL2Chunk = false) →
          counts l1num = 0) := by
  have lastNumber : ∀ other ∈ complete anchors, other.isLastL2Chunk = true →
      other.sequence.l2num + 1 = total anchors other.sequence.l1num := by
    intro other member isLast
    rw [(mem_complete.mp member).2] at isLast
    simpa [chunkAt] using isLast
  unfold noteLast
  by_cases isLast : chunk.isLastL2Chunk = true
  · have number := lastNumber chunk known isLast
    have clear : st.chunksPerAnchor chunk.sequence.l1num = 0 := by
      apply inv.uncounted _ room
      intro other member anchor
      by_contra alsoLast
      have number' := lastNumber other (inv.known other member) (by simpa using alsoLast)
      have same : other.sequence = chunk.sequence := by
        rw [anchor] at number'
        exact Sequence.eq_iff.mp (by simp [Sequence.eq, anchor]; omega)
      rw [eq_of_sequence (inv.known other member) known same] at member
      exact fresh member
    have representable := small chunk.sequence.l1num
    have value : (chunk.sequence.l2num + 1) % 2 ^ 32 = total anchors chunk.sequence.l1num := by
      rw [number]
      exact Nat.mod_eq_of_lt representable
    simp only [isLast, if_true, Nat.not_le.mpr room, if_false, clear, ne_eq, not_true_eq_false,
      value]
    refine ⟨_, rfl, ?_, ?_⟩
    · intro other member isLast'
      by_cases anchor : other.sequence.l1num = chunk.sequence.l1num
      · rw [anchor, Function.update_self]
      · rw [Function.update_of_ne anchor]
        rcases List.mem_cons.mp member with rfl | earlier
        · exact absurd rfl anchor
        · exact inv.counted other earlier isLast'
    · intro l1num inside none
      have anchor : l1num ≠ chunk.sequence.l1num := by
        intro same
        rw [none chunk List.mem_cons_self same.symm] at isLast
        cases isLast
      rw [Function.update_of_ne anchor]
      exact inv.uncounted l1num inside fun other member =>
        none other (List.mem_cons_of_mem chunk member)
  · rw [if_neg isLast]
    refine ⟨st.chunksPerAnchor, rfl, ?_, ?_⟩
    · intro other member isLast'
      rcases List.mem_cons.mp member with rfl | earlier
      · exact absurd isLast' isLast
      · exact inv.counted other earlier isLast'
    · intro l1num inside none
      exact inv.uncounted l1num inside fun other member =>
        none other (List.mem_cons_of_mem chunk member)

/-- One arriving chunk. -/
theorem receive_spec (positive : ∀ count ∈ anchors, 0 < count)
    (small : ∀ l1num, total anchors l1num < 2 ^ 32) (fuel : Nat)
    (inv : Inv cache anchors arrived waiting st)
    (absent : ∀ chunk ∈ arrived, chunk.sequence ≠ st.next) {chunk : FineChunk}
    (known : chunk ∈ complete anchors) (fresh : chunk ∉ arrived)
    (room : chunk.sequence.l1num < grownMax st.chunksPerAnchorMax chunk.sequence.l1num)
    (enough : waiting.card < fuel) :
    ∃ rest last, receive cache fuel st chunk = .ok last ∧
      Inv cache anchors (chunk :: arrived) rest last ∧
      (∀ other ∈ chunk :: arrived, other.sequence ≠ last.next) ∧
      last.chunksPerAnchorMax = grownMax st.chunksPerAnchorMax chunk.sequence.l1num ∧
      last.terminatedW = st.terminatedW := by
  have grown := inv_grow inv chunk room
  obtain ⟨counts, noted, counted, uncounted⟩ := noteLast_spec small grown known fresh room
  obtain ⟨inside, own⟩ := mem_complete.mp known
  -- The new chunk has arrived; whether it waits is settled below.
  have joined : ∀ (tree : T) (rest : Multiset FineChunk), cache.Holds tree rest → rest.Nodup →
      (∀ other, other ∈ rest ↔ other ∈ chunk :: arrived ∧ st.next.lt other.sequence) →
      Inv cache anchors (chunk :: arrived) rest { st with
        T := tree
        chunksPerAnchor := counts
        chunksPerAnchorMax := grownMax st.chunksPerAnchorMax chunk.sequence.l1num } := by
    intro tree rest holds nodup waits
    exact {
      known := by
        intro other member
        rcases List.mem_cons.mp member with rfl | earlier
        · exact known
        · exact inv.known other earlier
      written := inv.written
      position := inv.position
      past := fun s valid below => List.mem_cons_of_mem chunk (inv.past s valid below)
      room := by
        intro other member
        rcases List.mem_cons.mp member with rfl | earlier
        · exact room
        · exact grown.room other earlier
      limit := grown.limit
      counted := counted
      uncounted := uncounted
      holds := holds
      nodup := nodup
      waits := waits }
  simp only [receive, noted, bind, Except.bind, Sequence.eq_iff, grow_T, grow_next, grow_written,
    grow_terminatedW, grow_chunksPerAnchorMax]
  by_cases next : chunk.sequence = st.next
  · have here := joined st.T waiting inv.holds inv.nodup (by
      intro other
      rw [inv.waits, List.mem_cons]
      constructor
      · intro ⟨member, later⟩
        exact ⟨Or.inr member, later⟩
      · intro ⟨member, later⟩
        rcases member with rfl | earlier
        · rw [next] at later
          exact absurd later (Sequence.lt_irrefl _)
        · exact ⟨earlier, later⟩)
    have current : chunk = chunkAt anchors st.next := by rwa [next] at own
    have arrivedNow : chunkAt anchors st.next ∈ chunk :: arrived := by
      rw [← current]
      exact List.mem_cons_self
    obtain ⟨rest, last, ran, kept, gone, size, marks⟩ := drain_spec positive small fuel here
      (by rwa [next] at inside) arrivedNow enough
    dsimp only at ran
    rw [← current] at ran
    rw [if_pos next]
    exact ⟨rest, last, ran, kept, gone, size, marks⟩
  · have later : st.next.lt chunk.sequence := by
      rcases Sequence.lt_or_eq_or_gt st.next chunk.sequence with later | equal | earlier
      · exact later
      · exact absurd equal.symm next
      · have arrivedBefore := inv.past chunk.sequence inside earlier
        rw [← own] at arrivedBefore
        exact absurd arrivedBefore fresh
    have waits : ∀ other, other ∈ chunk ::ₘ waiting ↔
        other ∈ chunk :: arrived ∧ st.next.lt other.sequence := by
      intro other
      rw [Multiset.mem_cons, List.mem_cons, inv.waits]
      constructor
      · rintro (rfl | ⟨member, behind⟩)
        · exact ⟨Or.inl rfl, later⟩
        · exact ⟨Or.inr member, behind⟩
      · rintro ⟨rfl | member, behind⟩
        · exact Or.inl rfl
        · exact Or.inr ⟨member, behind⟩
    have unseen : chunk ∉ waiting := fun member => fresh ((inv.waits chunk).mp member).1
    obtain ⟨tree, inserted, holds⟩ := insert_spec chunk { st with
      chunksPerAnchor := counts
      chunksPerAnchorMax := grownMax st.chunksPerAnchorMax chunk.sequence.l1num } inv.holds
    rw [if_neg next, inserted]
    refine ⟨chunk ::ₘ waiting, _, rfl,
      joined tree _ holds (Multiset.nodup_cons.mpr ⟨unseen, inv.nodup⟩) waits, ?_, rfl, rfl⟩
    intro other member
    rcases List.mem_cons.mp member with rfl | earlier
    · exact next
    · exact absent other earlier

/-- Chunks that arrive one after the other. -/
theorem receive_all (positive : ∀ count ∈ anchors, 0 < count)
    (small : ∀ l1num, total anchors l1num < 2 ^ 32) (fuel : Nat)
    (arrivals more : List FineChunk) {arrived : List FineChunk} {waiting : Multiset FineChunk}
    {st : Reorder T} (inv : Inv cache anchors arrived waiting st)
    (absent : ∀ chunk ∈ arrived, chunk.sequence ≠ st.next)
    (known : ∀ chunk ∈ arrivals, chunk ∈ complete anchors)
    (fresh : (arrivals.reverse ++ arrived).Nodup)
    (fits : Fits st.chunksPerAnchorMax (arrivals ++ more))
    (enough : (complete anchors).length < fuel) :
    ∃ rest last, arrivals.foldlM (receive cache fuel) st = .ok last ∧
      Inv cache anchors (arrivals.reverse ++ arrived) rest last ∧
      (∀ other ∈ arrivals.reverse ++ arrived, other.sequence ≠ last.next) ∧
      Fits last.chunksPerAnchorMax more ∧ last.terminatedW = st.terminatedW := by
  induction arrivals generalizing arrived waiting st with
  | nil => exact ⟨waiting, st, rfl, inv, absent, fits, rfl⟩
  | cons chunk arrivals ih =>
    have split : (chunk :: arrivals).reverse ++ arrived =
        arrivals.reverse ++ chunk :: arrived := by simp
    rw [split] at fresh ⊢
    have new : chunk ∉ arrived :=
      (List.nodup_cons.mp (List.nodup_append.mp fresh).2.1).1
    have few : waiting.card < fuel := by
      have inside : waiting ≤ (complete anchors : Multiset FineChunk) := by
        rw [Multiset.le_iff_subset inv.nodup]
        intro other member
        exact inv.known other ((inv.waits other).mp member).1
      have bound := Multiset.card_le_card inside
      rw [Multiset.coe_card] at bound
      omega
    obtain ⟨rest, middle, ran, kept, gone, size, marks⟩ := receive_spec positive small fuel inv
      absent (known chunk List.mem_cons_self) new fits.1 few
    rw [List.foldlM_cons, ran]
    obtain ⟨rest', last, ran', kept', gone', left, marks'⟩ := ih kept gone
      (fun other member => known other (List.mem_cons_of_mem chunk member)) fresh
      (by rw [size]; exact fits.2)
    exact ⟨rest', last, ran', kept', gone', left, marks'.trans marks⟩

/-- When every chunk has arrived, all are written and none waits. -/
theorem Inv.finished (inv : Inv cache anchors arrived waiting st)
    (absent : ∀ chunk ∈ arrived, chunk.sequence ≠ st.next)
    (all : ∀ chunk ∈ complete anchors, chunk ∈ arrived) :
    st.written = complete anchors ∧ waiting = 0 := by
  have ended : st.next = ⟨anchors.length, 0⟩ := by
    rcases inv.position with valid | ended
    · have here := all (chunkAt anchors st.next) (mem_complete.mpr ⟨valid, rfl⟩)
      exact absurd rfl (absent _ here)
    · exact ended
  constructor
  · rw [inv.written, ended]
    rfl
  · by_contra some
    obtain ⟨chunk, member⟩ := Multiset.exists_mem_of_ne_zero some
    obtain ⟨here, later⟩ := (inv.waits chunk).mp member
    have inside := (mem_complete.mp (inv.known chunk here)).1.1
    rw [Sequence.lt_iff, ended] at later
    dsimp only at later
    omega

/-- Buffers that arrive one after the other. The flush at the end of a buffer writes nothing,
since it comes only when no chunk is left. -/
theorem svc_all (positive : ∀ count ∈ anchors, 0 < count)
    (small : ∀ l1num, total anchors l1num < 2 ^ 32) {fuel nw : Nat}
    (rest done : List (List FineChunk × Bool)) {waiting : Multiset FineChunk} {st : Reorder T}
    (inv : Inv cache anchors (done.flatMap Prod.fst).reverse waiting st)
    (absent : ∀ chunk ∈ (done.flatMap Prod.fst).reverse, chunk.sequence ≠ st.next)
    (marks : st.terminatedW = done.countP Prod.snd)
    (arrivals : ((done ++ rest).flatMap Prod.fst).Perm (complete anchors))
    (fits : Fits st.chunksPerAnchorMax (rest.flatMap Prod.fst))
    (quiet : ∀ before after, done ++ rest = before ++ after → before.countP Prod.snd = nw →
      after.flatMap Prod.fst = [])
    (enough : (complete anchors).length < fuel) :
    ∃ last waiting, rest.foldlM (svc cache fuel nw) st = .ok last ∧
      Inv cache anchors ((done ++ rest).flatMap Prod.fst).reverse waiting last ∧
      ∀ chunk ∈ ((done ++ rest).flatMap Prod.fst).reverse, chunk.sequence ≠ last.next := by
  induction rest generalizing done waiting st with
  | nil =>
    rw [List.append_nil]
    exact ⟨st, waiting, rfl, inv, absent⟩
  | cons task rest ih =>
    have regroup : done ++ task :: rest = (done ++ [task]) ++ rest := by simp
    rw [List.flatMap_cons] at fits
    rw [regroup] at arrivals quiet ⊢
    have soFar : ((done ++ [task]).flatMap Prod.fst).reverse =
        task.1.reverse ++ (done.flatMap Prod.fst).reverse := by simp
    have known : ∀ chunk ∈ task.1, chunk ∈ complete anchors := by
      intro chunk member
      apply arrivals.mem_iff.mp
      simp [member]
    have fresh : (task.1.reverse ++ (done.flatMap Prod.fst).reverse).Nodup := by
      have whole := arrivals.nodup_iff.mpr (complete_nodup anchors)
      rw [List.flatMap_append] at whole
      rw [← soFar, List.nodup_reverse]
      exact (List.nodup_append.mp whole).1
    obtain ⟨rest', middle, ran, kept, gone, left, same⟩ := receive_all positive small fuel
      task.1 (rest.flatMap Prod.fst) inv absent known fresh fits enough
    rw [← soFar] at kept gone
    -- The mark is counted, and the flush finds an empty tree.
    have counted : ∃ last, svc cache fuel nw st task = .ok last ∧
        last.terminatedW = (done ++ [task]).countP Prod.snd ∧
        last.chunksPerAnchorMax = middle.chunksPerAnchorMax ∧ last.next = middle.next ∧
        Inv cache anchors ((done ++ [task]).flatMap Prod.fst).reverse rest' last := by
      simp only [svc, ran, bind, Except.bind]
      have count : (done ++ [task]).countP Prod.snd =
          middle.terminatedW + if task.2 then 1 else 0 := by
        rw [same, marks, List.countP_append, List.countP_singleton]
      have flushed : ∀ st' : Reorder T, st'.T = middle.T →
          st'.terminatedW = (done ++ [task]).countP Prod.snd →
          (if st'.terminatedW = nw then flush cache fuel (cache.tree.findMin st'.T) st'
            else .ok st') = .ok st' := by
        intro st' tree total
        split
        · rename_i target
          have nothing := quiet (done ++ [task]) rest rfl (total ▸ target)
          have all : ∀ chunk ∈ complete anchors,
              chunk ∈ ((done ++ [task]).flatMap Prod.fst).reverse := by
            intro chunk member
            have arrivedNow := arrivals.mem_iff.mpr member
            rw [List.flatMap_append, nothing, List.append_nil] at arrivedNow
            exact List.mem_reverse.mpr arrivedNow
          have holds := kept.holds
          rw [(kept.finished gone all).2] at holds
          rw [tree, holds.findMin]
          cases fuel <;> rfl
        · rfl
      cases mark : task.2 with
      | true =>
        rw [mark, if_pos rfl] at count
        refine ⟨{ middle with terminatedW := middle.terminatedW + 1 },
          flushed _ rfl count.symm, count.symm, rfl, rfl, ?_⟩
        exact { kept with }
      | false =>
        rw [mark] at count
        exact ⟨middle, flushed _ rfl count.symm, count.symm, rfl, rfl, kept⟩
    obtain ⟨last, ranTask, total, size, next, invariant⟩ := counted
    rw [List.foldlM_cons, ranTask]
    exact ih (done ++ [task]) invariant (by rwa [next]) total arrivals (by rwa [size]) quiet

end Reorder

section Results

variable {Q T : Type} (cache : Cache Q T) {anchors : List Nat}

namespace Reorder

/-- The numbers of anchors are positive. -/
theorem anchors_pos (sizes : ∀ count ∈ anchors, 0 < count ∧ count < 2 ^ 32) :
    ∀ count ∈ anchors, 0 < count :=
  fun count member => (sizes count member).1

/-- The numbers of anchors have 32 bits. -/
theorem total_lt (sizes : ∀ count ∈ anchors, 0 < count ∧ count < 2 ^ 32) (l1num : Nat) :
    total anchors l1num < 2 ^ 32 := by
  rcases Nat.lt_or_ge l1num anchors.length with inside | outside
  · exact (sizes _ (by simp [total, inside])).2
  · have missing : total anchors l1num = 0 := by simp [total, outside]
    omega

/-- All chunks have arrived. -/
theorem all_arrived {arrivals : List FineChunk} (complete_ : arrivals.Perm (complete anchors)) :
    ∀ chunk ∈ complete anchors, chunk ∈ arrivals.reverse := by
  intro chunk member
  exact List.mem_reverse.mpr (complete_.mem_iff.mpr member)

/-- At the start no chunk is waiting. -/
theorem none_waiting : ∀ chunk ∈ ([] : List FineChunk), chunk.sequence ≠ (start cache).next :=
  fun _ member => absurd member List.not_mem_nil

/-- A complete set that is received in any order is written in order. -/
theorem receive_complete (sizes : ∀ count ∈ anchors, 0 < count ∧ count < 2 ^ 32)
    {arrivals : List FineChunk} {fuel : Nat} (complete_ : arrivals.Perm (complete anchors))
    (fits : Fits 1024 arrivals) (enough : (complete anchors).length < fuel) :
    ∃ received, arrivals.foldlM (receive cache fuel) (start cache) = .ok received ∧
      received.written = complete anchors ∧ ∀ l1num, cache.tree.find l1num received.T = none := by
  obtain ⟨rest, received, ran, kept, gone, _, _⟩ := receive_all (anchors_pos sizes)
    (total_lt sizes) fuel arrivals [] (inv_start cache (anchors_pos sizes)) (none_waiting cache)
    (fun chunk member => complete_.mem_iff.mp member)
    (by rw [List.append_nil, List.nodup_reverse]
        exact complete_.nodup_iff.mpr (complete_nodup anchors))
    (by rwa [List.append_nil]) enough
  rw [List.append_nil] at kept gone
  obtain ⟨written, nothing⟩ := kept.finished gone (all_arrived complete_)
  have holds := kept.holds
  rw [nothing] at holds
  exact ⟨received, ran, written, holds.empty⟩

end Reorder

/-- Every order of arrival of a complete set in which the growth step always makes room, in
buffers of any sizes: after the last chunk each chunk has been written once, in increasing
lexicographic order, and the tree is empty. So the flush has nothing to write. -/
theorem reorder_correct (sizes : ∀ count ∈ anchors, 0 < count ∧ count < 2 ^ 32)
    {tasks : List (List FineChunk × Bool)} {nw fuel : Nat}
    (arrivals : (tasks.flatMap Prod.fst).Perm (complete anchors))
    (fits : Reorder.Fits 1024 (tasks.flatMap Prod.fst))
    (quiet : ∀ n ≤ tasks.length, (tasks.take n).countP Prod.snd = nw →
      (tasks.drop n).flatMap Prod.fst = [])
    (enough : (complete anchors).length < fuel) :
    ∃ received last,
      (tasks.flatMap Prod.fst).foldlM (Reorder.receive cache fuel) (Reorder.start cache) =
        .ok received ∧
      received.written = complete anchors ∧ (∀ l1num, cache.tree.find l1num received.T = none) ∧
      tasks.foldlM (Reorder.svc cache fuel nw) (Reorder.start cache) = .ok last ∧
      last.written = complete anchors ∧ (∀ l1num, cache.tree.find l1num last.T = none) ∧
      (complete anchors).Pairwise fun chunk other => chunk.sequence.lt other.sequence := by
  obtain ⟨received, ran, written, empty⟩ :=
    Reorder.receive_complete cache sizes arrivals fits enough
  have quietAfter : ∀ before after, [] ++ tasks = before ++ after →
      before.countP Prod.snd = nw → after.flatMap Prod.fst = [] := by
    intro before after same marks
    rw [List.nil_append] at same
    have split := quiet before.length (by simp [same])
    rw [same, List.take_left, List.drop_left] at split
    exact split marks
  obtain ⟨last, rest', ran', kept', gone'⟩ := Reorder.svc_all (Reorder.anchors_pos sizes)
    (Reorder.total_lt sizes) tasks [] (Reorder.inv_start cache (Reorder.anchors_pos sizes))
    (Reorder.none_waiting cache) rfl arrivals fits quietAfter enough
  obtain ⟨written', nothing'⟩ := kept'.finished gone' (Reorder.all_arrived arrivals)
  have holds' := kept'.holds
  rw [nothing'] at holds'
  exact ⟨received, last, ran, written, empty, ran', written', holds'.empty,
    complete_sorted anchors⟩

end Results

section Sample

/-- The cache with lists as heaps and as search tree. -/
def listCache : Cache (List FineChunk) (List (Nat × List FineChunk)) := ⟨.list _, .list⟩

/-- Two coarse chunks of two fine chunks each, arriving from the last to the first. -/
def backwards : List (List FineChunk × Bool) :=
  [([⟨⟨1, 1⟩, true⟩, ⟨⟨1, 0⟩, false⟩], false), ([⟨⟨0, 1⟩, true⟩, ⟨⟨0, 0⟩, false⟩], true)]

/-- Chunks that come in the reverse order are written in order. -/
theorem reorder_correct_sample :
    ∃ received last,
      (backwards.flatMap Prod.fst).foldlM (Reorder.receive listCache 5) (Reorder.start listCache) =
        .ok received ∧
      received.written = complete [2, 2] ∧
      (∀ l1num, listCache.tree.find l1num received.T = none) ∧
      backwards.foldlM (Reorder.svc listCache 5 1) (Reorder.start listCache) = .ok last ∧
      last.written = complete [2, 2] ∧ (∀ l1num, listCache.tree.find l1num last.T = none) ∧
      (complete [2, 2]).Pairwise fun chunk other => chunk.sequence.lt other.sequence :=
  reorder_correct listCache (by decide) (by decide) (by decide) (by decide) (by decide)

/-- One more coarse chunk adds its fine chunks at the end. -/
theorem complete_concat (anchors : List Nat) (count : Nat) :
    complete (anchors ++ [count]) = complete anchors ++
      (List.range count).map fun l2num => ⟨⟨anchors.length, l2num⟩, l2num + 1 == count⟩ := by
  have own : total (anchors ++ [count]) anchors.length = count := by simp [total]
  have earlier : ∀ l1num < anchors.length,
      total (anchors ++ [count]) l1num = total anchors l1num := by
    intro l1num inside
    simp [total, List.getElem?_append_left inside]
  simp only [complete, before, chunkAt, List.length_append, List.length_singleton,
    List.range_succ, List.flatMap_append, List.flatMap_singleton, List.range_zero, List.map_nil,
    List.append_nil, own]
  congr 1
  apply List.flatMap_congr
  intro l1num member
  rw [earlier l1num (List.mem_range.mp member)]

/-- The last of 2049 coarse chunks of one fine chunk each. -/
theorem complete_replicate : complete (List.replicate 2049 1) =
    complete (List.replicate 2048 1) ++ [⟨⟨2048, 0⟩, true⟩] := by
  rw [show 2049 = 2048 + 1 from rfl, List.replicate_succ', complete_concat, List.length_replicate]
  rfl

/-- 2049 coarse chunks of one fine chunk each, of which the last arrives first: the growth step
doubles the 1024 entries of the array to 2048, and the entry 2048 is stored beyond its end. -/
theorem reorder_out_of_bounds :
    ∃ tasks : List (List FineChunk × Bool),
      (tasks.flatMap Prod.fst).Perm (complete (List.replicate 2049 1)) ∧
      (∀ fuel, (tasks.flatMap Prod.fst).foldlM (Reorder.receive listCache fuel)
        (Reorder.start listCache) = .error .outOfBounds) ∧
      ∀ fuel nw, tasks.foldlM (Reorder.svc listCache fuel nw) (Reorder.start listCache) =
        .error .outOfBounds := by
  have stops : ∀ fuel, Reorder.receive listCache fuel (Reorder.start listCache)
      ⟨⟨2048, 0⟩, true⟩ = .error .outOfBounds := fun _ => rfl
  refine ⟨[(⟨⟨2048, 0⟩, true⟩ :: complete (List.replicate 2048 1), true)], ?_, ?_, ?_⟩
  · rw [complete_replicate, List.flatMap_singleton]
    exact (List.perm_append_singleton _ _).symm
  · intro fuel
    rw [List.flatMap_singleton, List.foldlM_cons, stops]
    rfl
  · intro fuel nw
    rw [List.foldlM_cons, Reorder.svc, List.foldlM_cons, stops]
    rfl

end Sample

end P3arsec.Dedup
