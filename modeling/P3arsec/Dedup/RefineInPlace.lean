import P3arsec.Dedup.Mbuffer
import P3arsec.Dedup.Workers

/-!
# The refinement of a coarse chunk

`FragmentRefine` cuts a coarse chunk in place. It splits the memory buffer of the chunk at the next
anchor; the first piece keeps the chunk and is sent, and what is left goes on in a new chunk. The
piece behind the last anchor is sent without a split.

`RefineConfig.pieces` says what the pieces are, and `Refined` what the loop leaves: the chunks that
are sent hold the pieces in order, with their numbers and flags, and no other chunk has changed. The
stages that only look at the chunks can take them as the list that `refine` makes
(`refineChunk_views`).

The offset of an anchor is stored in an `int`, each piece is one more reference to the memory of the
coarse chunk, and the pieces are numbered with 32 bits. None of the three is checked, so there are
coarse chunks that the loop does not refine (`fragmentRefine_fails`).
-/

namespace P3arsec.Dedup

open P3arsec.Lib

/-- The fields of `chunk_t` that the refinement sets, without the memory buffer. -/
structure ChunkHead where
  /-- `header.state`. -/
  state : ChunkState
  /-- `sequence.l1num`. -/
  l1num : Nat
  /-- `sequence.l2num`. -/
  l2num : Nat
  /-- `isLastL2Chunk`. -/
  isLastL2Chunk : Bool
  deriving DecidableEq, Repr

/-- The chunks of the stage. The buffer `uncompressed_data` of a chunk has the address of the
chunk. -/
structure Refinery where
  /-- The memory of the buffers. -/
  heap : Heap
  /-- The other fields of the chunk at an address. -/
  heads : Nat → ChunkHead
  /-- The chunks inserted into `send_buf`, in order. -/
  sent : List Nat

/-- A chunk as the later stages see it. -/
def Refinery.view (state : Refinery) (chunk : Nat) : DataChunk :=
  ⟨⟨⟨(state.heads chunk).l1num, (state.heads chunk).l2num⟩, (state.heads chunk).isLastL2Chunk⟩,
    state.heap.mem.bytes chunk⟩

/-- The counters of the memory control blocks, the Rabin fingerprint search and the allocation of
chunks. -/
structure RefineConfig where
  /-- The number of values of a reference counter. -/
  range : Nat
  /-- A counter has a value. -/
  range_pos : 0 < range
  /-- `rabinseg` in a round of the loop. -/
  rabinseg : Nat → Bytes → Nat
  /-- `malloc` in a round of the loop, where some addresses are in use. -/
  malloc : Nat → Finset Nat → Nat
  /-- A new chunk is not in use. -/
  malloc_fresh : ∀ round used, malloc round used ∉ used

namespace RefineConfig

variable (cfg : RefineConfig)

/-- `offset` in a round of the loop. -/
def offset (round : Nat) (data : Bytes) : Int := toInt (cfg.rabinseg round data)

/-- The loop of `FragmentRefine::compute` over the pieces of a coarse chunk, none when the fuel runs
out or a call faults. -/
def refineLoop : Nat → Nat → Nat → Refinery → Nat → Option Refinery
  | 0, _, _, _, _ => none
  | fuel + 1, round, chcount, state, chunk =>
    let offset := cfg.offset round (state.heap.mem.bytes chunk)
    -- the size is a `size_t`, and as such a negative offset is greater than every size
    if 0 ≤ offset ∧ offset < (state.heap.mem.bufs chunk).n then do
      let temp := cfg.malloc round state.heap.live
      let heads := Function.update state.heads temp { state.heads temp with
        state := (state.heads chunk).state, l1num := (state.heads chunk).l1num }
      let (_, heap) ← state.heap.perform cfg.range (.split chunk temp offset.toNat)
      let heads := Function.update heads chunk { heads chunk with
        l2num := chcount, isLastL2Chunk := false }
      refineLoop fuel (round + 1) ((chcount + 1) % 2 ^ 32)
        { heap := heap, heads := heads, sent := state.sent ++ [chunk] } temp
    else
      let heads := Function.update state.heads chunk { state.heads chunk with
        l2num := chcount, isLastL2Chunk := true }
      some { state with heads := heads, sent := state.sent ++ [chunk] }

/-- `FragmentRefine::compute` for one coarse chunk. -/
def refineChunk (fuel : Nat) (state : Refinery) (chunk : Nat) : Option Refinery :=
  cfg.refineLoop fuel 0 0 state chunk

/-- The data is cut in a round of the loop. -/
def Splits (round : Nat) (data : Bytes) : Prop :=
  0 < cfg.offset round data ∧ cfg.offset round data < data.length

instance (round : Nat) (data : Bytes) : Decidable (cfg.Splits round data) :=
  inferInstanceAs (Decidable (_ ∧ _))

/-- The first piece of data that is cut. -/
def front (round : Nat) (data : Bytes) : Bytes := data.take (cfg.offset round data).toNat

/-- What is left of data that is cut. -/
def rest (round : Nat) (data : Bytes) : Bytes := data.drop (cfg.offset round data).toNat

variable {cfg} in
/-- Less is left of data that is cut. -/
theorem Splits.length_rest {round : Nat} {data : Bytes} (splits : cfg.Splits round data) :
    (cfg.rest round data).length < data.length := by
  obtain ⟨positive, inside⟩ := splits
  rw [rest, List.length_drop]
  omega

/-- The data between the anchors, from a round of the loop on. -/
def pieces (round : Nat) (data : Bytes) : List Bytes :=
  if splits : cfg.Splits round data then
    cfg.front round data :: pieces (round + 1) (cfg.rest round data)
  else [data]
  termination_by data.length
  decreasing_by exact splits.length_rest

/-- No offset of the loop is 0, from a round on. -/
def Found (round : Nat) (data : Bytes) : Prop :=
  cfg.offset round data ≠ 0 ∧
    ∀ _ : cfg.Splits round data, Found (round + 1) (cfg.rest round data)
  termination_by data.length
  decreasing_by exact Splits.length_rest ‹_›

/-- The data behind the last anchor is one piece. -/
theorem pieces_of_not {round : Nat} {data : Bytes} (last : ¬cfg.Splits round data) :
    cfg.pieces round data = [data] := by
  rw [pieces, dif_neg last]

/-- The data before an anchor is one piece. -/
theorem pieces_of_splits {round : Nat} {data : Bytes} (splits : cfg.Splits round data) :
    cfg.pieces round data =
      cfg.front round data :: cfg.pieces (round + 1) (cfg.rest round data) := by
  rw [pieces, dif_pos splits]

/-- No offset is 0 where that of the last piece is not. -/
theorem found_of_not {round : Nat} {data : Bytes} (last : ¬cfg.Splits round data) :
    cfg.Found round data ↔ cfg.offset round data ≠ 0 := by
  rw [Found]
  exact and_iff_left fun splits => absurd splits last

/-- No offset is 0 where those of what is left are not. -/
theorem found_of_splits {round : Nat} {data : Bytes} (splits : cfg.Splits round data) :
    cfg.Found round data ↔ cfg.Found (round + 1) (cfg.rest round data) := by
  rw [Found]
  exact ⟨fun found => found.2 splits, fun found => ⟨splits.1.ne', fun _ => found⟩⟩

/-- There is always a last piece. -/
theorem pieces_ne_nil (round : Nat) (data : Bytes) : cfg.pieces round data ≠ [] := by
  by_cases splits : cfg.Splits round data
  · rw [cfg.pieces_of_splits splits]
    exact List.cons_ne_nil _ _
  · rw [cfg.pieces_of_not splits]
    exact List.cons_ne_nil _ _

/-- There is a piece. -/
theorem length_pieces_pos (round : Nat) (data : Bytes) : 0 < (cfg.pieces round data).length :=
  List.length_pos_of_ne_nil (cfg.pieces_ne_nil round data)

/-- The pieces concatenate to the data. -/
theorem flatten_pieces (round : Nat) (data : Bytes) : (cfg.pieces round data).flatten = data := by
  induction round, data using pieces.induct cfg with
  | case1 round data splits ih =>
    rw [cfg.pieces_of_splits splits, List.flatten_cons, ih, front, rest, List.take_append_drop]
  | case2 round data last =>
    rw [cfg.pieces_of_not last, List.flatten_singleton]

/-- No piece is empty. -/
theorem ne_nil_of_mem_pieces {round : Nat} {data : Bytes} (some : data ≠ []) :
    ∀ piece ∈ cfg.pieces round data, piece ≠ [] := by
  induction round, data using pieces.induct cfg with
  | case1 round data splits ih =>
    obtain ⟨positive, inside⟩ := splits
    have left : cfg.rest round data ≠ [] := fun none => by
      have short := List.drop_eq_nil_iff.mp none
      omega
    have first : cfg.front round data ≠ [] := by
      rw [front, ne_eq, List.take_eq_nil_iff]
      exact not_or.mpr ⟨by omega, some⟩
    rw [cfg.pieces_of_splits ⟨positive, inside⟩]
    exact List.forall_mem_cons.mpr ⟨first, ih left⟩
  | case2 round data last =>
    rw [cfg.pieces_of_not last]
    exact List.forall_mem_singleton.mpr some

/-- An anchor behind every byte makes pieces of one byte. -/
theorem length_pieces_of_one (one : ∀ round data, cfg.rabinseg round data = 1) (round : Nat)
    (data : Bytes) (some : data ≠ []) : (cfg.pieces round data).length = data.length := by
  have offset : ∀ round data, cfg.offset round data = 1 := fun round data => by
    rw [RefineConfig.offset, one, toInt_of_lt (by decide), Nat.cast_one]
  induction round, data using pieces.induct cfg with
  | case1 round data splits ih =>
    have inside := splits.2
    rw [offset] at inside
    have length : (cfg.rest round data).length = data.length - 1 := by
      rw [rest, List.length_drop, offset, Int.toNat_one]
    rw [cfg.pieces_of_splits splits, List.length_cons, ih, length]
    · omega
    · exact List.ne_nil_of_length_pos (by omega)
  | case2 round data last =>
    have positive := List.length_pos_of_ne_nil some
    have short : ¬(0 < (1 : Int) ∧ (1 : Int) < data.length) := offset round data ▸ last
    rw [cfg.pieces_of_not last, List.length_singleton]
    omega

end RefineConfig

namespace Heap

variable {range : Nat} {heap heap' : Heap} {m1 m2 split : Nat}

/-- What a split that returns has set. -/
theorem perform_split {done : Bool}
    (ran : heap.perform range (.split m1 m2 split) = some (done, heap')) (apart : m2 ≠ m1) :
    done = true ∧ (heap'.mem.bufs m1).n = split ∧ heap'.mem.owner m2 = heap.mem.owner m1 ∧
      ∀ each, each ≠ m2 → heap'.mem.owner each = heap.mem.owner each := by
  simp only [perform, Memory.split, Memory.retain, Option.bind_eq_bind, Option.bind_eq_some_iff,
    Option.pure_def, Option.some.injEq, Prod.mk.injEq] at ran
  obtain ⟨mem, ⟨-, -, mem', ⟨c, own, mcb, control, -, -, rfl⟩, rfl⟩, rfl, rfl⟩ := ran
  refine ⟨rfl, ?_, ?_, fun each other => ?_⟩
  · simp only [Function.update_self]
  · rw [Memory.owner, Memory.owner]
    simp only [Function.update_of_ne apart, Function.update_self]
  · by_cases here : each = m1
    · rw [Memory.owner, Memory.owner, here]
      simp only [Function.update_self]
    · rw [Memory.owner, Memory.owner]
      simp only [Function.update_of_ne here, Function.update_of_ne other]

/-- What a split that returns has made of the counter. -/
theorem perform_split_counter {done : Bool} {c : Nat} {mcb : Mcb}
    (ran : heap.perform range (.split m1 m2 split) = some (done, heap'))
    (own : heap.mem.owner m1 = some c) (control : heap.mem.mcbs c = some mcb) :
    heap'.live = insert m2 heap.live ∧
      heap'.mem.mcbs c = some { mcb with i := (mcb.i + 1) % range } := by
  simp only [perform, Memory.split, Memory.retain, Option.bind_eq_bind, Option.bind_eq_some_iff,
    Option.pure_def, Option.some.injEq, Prod.mk.injEq] at ran
  obtain ⟨mem, ⟨-, -, mem', ⟨c', own', mcb', control', -, -, rfl⟩, rfl⟩, rfl, rfl⟩ := ran
  obtain rfl := Option.some.inj (own.symm.trans own')
  obtain rfl := Option.some.inj (control.symm.trans control')
  exact ⟨rfl, Function.update_self ..⟩

/-- There is no split at the begin of a buffer. -/
theorem perform_split_zero : heap.perform range (.split m1 m2 0) = none := by
  simp [perform, Memory.split, guard]

/-- The counter of a live buffer is below the number of the buffers that refer to its control
block. -/
def Undercounted (heap : Heap) (m : Nat) : Prop :=
  ∃ c mcb, heap.mem.owner m = some c ∧ heap.mem.mcbs c = some mcb ∧
    mcb.i < (heap.references c).card

/-- Such a counter is not right. -/
theorem Undercounted.not_owned {m : Nat} (under : heap.Undercounted m) : ¬heap.Owned := by
  obtain ⟨c, mcb, -, control, below⟩ := under
  exact fun owned => absurd (owned.counter c mcb control) (Nat.ne_of_lt below)

/-- A split does not repair a counter, and it makes one wrong that cannot count one more
reference. -/
theorem undercounted_split {done : Bool} {c : Nat} {mcb : Mcb}
    (ran : heap.perform range (.split m1 m2 split) = some (done, heap')) (apart : m2 ≠ m1)
    (fresh : m2 ∉ heap.live) (own : heap.mem.owner m1 = some c)
    (control : heap.mem.mcbs c = some mcb)
    (below : (mcb.i + 1) % range < (heap.references c).card + 1) : heap'.Undercounted m2 := by
  obtain ⟨-, -, owner, owners⟩ := perform_split ran apart
  obtain ⟨live, counter⟩ := perform_split_counter ran own control
  refine ⟨c, _, owner.trans own, counter, ?_⟩
  have same : ∀ each ∈ heap.live, heap'.mem.owner each = heap.mem.owner each :=
    fun each inside => owners each fun here => fresh (here ▸ inside)
  rwa [references, live, card_holders_insert fresh same (owner.trans own)]

/-- A split of a live buffer that is longer than the first piece, where the counter can count one
more reference. -/
theorem Owned.cut (owned : heap.Owned) (member : m1 ∈ heap.live) (fresh : m2 ∉ heap.live)
    (positive : 0 < split) (inside : split < (heap.mem.bufs m1).n)
    (room : ∀ c, heap.mem.owner m1 = some c → (heap.references c).card + 1 < range) :
    ∃ heap', heap.perform range (.split m1 m2 split) = some (true, heap') ∧ heap'.Owned ∧
      heap'.live = insert m2 heap.live ∧
      heap'.mem.bytes m1 = (heap.mem.bytes m1).take split ∧
      heap'.mem.bytes m2 = (heap.mem.bytes m1).drop split ∧
      (∀ each ∈ heap.live, each ≠ m1 → heap'.mem.bytes each = heap.mem.bytes each) ∧
      ∀ c, heap'.mem.owner m2 = some c → heap.mem.owner m1 = some c ∧
        (heap'.references c).card = (heap.references c).card + 1 := by
  have apart : m2 ≠ m1 := fun same => fresh (same ▸ member)
  obtain ⟨done, heap', ran, owned', live, ⟨whole, -⟩, others⟩ :=
    owned.split ⟨member, fresh, positive, inside⟩ room
  obtain ⟨rfl, size, own, owners⟩ := perform_split ran apart
  have live' : heap'.live = insert m2 heap.live := live
  have first : m1 ∈ heap'.live := live' ▸ Finset.mem_insert_of_mem member
  have length : (heap'.mem.bytes m1).length = split := (owned'.length_bytes first).trans size
  refine ⟨heap', ran, owned', live', ?_, ?_, others, fun c holds => ⟨own ▸ holds, ?_⟩⟩
  · rw [← whole, List.take_left' length]
  · rw [← whole, List.drop_left' length]
  · have same : ∀ each ∈ heap.live, heap'.mem.owner each = heap.mem.owner each :=
      fun each inside => owners each fun here => fresh (here ▸ inside)
    rw [references, live']
    exact card_holders_insert fresh same holds

end Heap

/-- A round of the loop has cut the first bytes off a chunk and moved the others into a new one. -/
structure Cut (offset chcount : Nat) (before after : Refinery) (chunk temp : Nat) : Prop where
  /-- The chunk is in use. -/
  member : chunk ∈ before.heap.live
  /-- The other one is new. -/
  fresh : temp ∉ before.heap.live
  /-- It has a buffer. -/
  live : after.heap.live = insert temp before.heap.live
  /-- The reference counters are right. -/
  owned : after.heap.Owned
  /-- The chunk is inserted into the send buffer. -/
  inserted : after.sent = before.sent ++ [chunk]
  /-- It holds the first bytes. -/
  front : after.heap.mem.bytes chunk = (before.heap.mem.bytes chunk).take offset
  /-- The new chunk holds the others. -/
  back : after.heap.mem.bytes temp = (before.heap.mem.bytes chunk).drop offset
  /-- The chunk is numbered and not marked. -/
  own : after.heads chunk =
    ⟨(before.heads chunk).state, (before.heads chunk).l1num, chcount, false⟩
  /-- The new chunk carries on the state and the first-level number. -/
  carries : (after.heads temp).state = (before.heads chunk).state ∧
    (after.heads temp).l1num = (before.heads chunk).l1num
  /-- The other chunks in use have not changed. -/
  others : ∀ each ∈ before.heap.live, each ≠ chunk →
    after.heap.mem.bytes each = before.heap.mem.bytes each ∧ after.heads each = before.heads each

/-- The loop has sent chunks that hold some pieces of data: they are the chunk that it began with
and new ones, and it has changed no other chunk in use. -/
structure Refined (number : Nat → Nat) (pieces : List Bytes) (before after : Refinery) (chunk : Nat)
    (sent : List Nat) : Prop where
  /-- The chunks are inserted into the send buffer. -/
  inserted : after.sent = before.sent ++ sent
  /-- They hold the pieces, in order. -/
  bytes : sent.map after.heap.mem.bytes = pieces
  /-- They carry on the state and the first-level number, are numbered, and the last one is
  marked. -/
  heads : ∀ i (inside : i < sent.length), after.heads sent[i] = ⟨(before.heads chunk).state,
    (before.heads chunk).l1num, number i, decide (i + 1 = sent.length)⟩
  /-- No chunk is sent twice. -/
  nodup : sent.Nodup
  /-- The first piece keeps the chunk. -/
  begins : chunk ∈ sent
  /-- The other chunks are new. -/
  new : ∀ piece ∈ sent, piece = chunk ∨ piece ∉ before.heap.live
  /-- Every chunk has its buffer. -/
  live : ∀ each, each ∈ after.heap.live ↔ each ∈ before.heap.live ∨ each ∈ sent
  /-- The reference counters are right. -/
  owned : after.heap.Owned
  /-- The other chunks in use have not changed. -/
  others : ∀ each ∈ before.heap.live, each ≠ chunk →
    after.heap.mem.bytes each = before.heap.mem.bytes each ∧ after.heads each = before.heads each

namespace Refined

variable {number : Nat → Nat} {pieces : List Bytes} {before between after : Refinery}
variable {chunk temp offset : Nat} {sent : List Nat}

/-- The chunk with the last piece. -/
theorem last {heads : Nat → ChunkHead} (owned : before.heap.Owned)
    (member : chunk ∈ before.heap.live)
    (own : heads chunk =
      ⟨(before.heads chunk).state, (before.heads chunk).l1num, number 0, true⟩)
    (others : ∀ each, each ≠ chunk → heads each = before.heads each) :
    Refined number [before.heap.mem.bytes chunk] before
      { before with heads := heads, sent := before.sent ++ [chunk] } chunk [chunk] where
  inserted := rfl
  bytes := rfl
  heads i inside := by
    obtain rfl : i = 0 := Nat.lt_one_iff.mp inside
    exact own
  nodup := List.nodup_singleton chunk
  begins := List.mem_singleton.mpr rfl
  live each := by
    rw [List.mem_singleton]
    exact ⟨Or.inl, fun here => here.elim id fun same => same ▸ member⟩
  new piece inside := Or.inl (List.mem_singleton.mp inside)
  owned := owned
  others each _ apart := ⟨rfl, others each apart⟩

/-- A round that cuts a piece off, and the rounds behind it. -/
theorem cons (cut : Cut offset (number 0) before between chunk temp) (some : pieces ≠ [])
    (rest : Refined (fun i => number (i + 1)) pieces between after temp sent) :
    Refined number ((before.heap.mem.bytes chunk).take offset :: pieces) before after chunk
      (chunk :: sent) := by
  have apart : chunk ≠ temp := fun same => cut.fresh (same ▸ cut.member)
  have inside : ∀ each ∈ before.heap.live, each ∈ between.heap.live := fun each here =>
    cut.live ▸ Finset.mem_insert_of_mem here
  have kept := rest.others chunk (inside chunk cut.member) apart
  have unused : ∀ each ∈ sent, each ∉ before.heap.live := by
    intro each here used
    rcases rest.new each here with rfl | outside
    · exact cut.fresh used
    · exact outside (inside each used)
  constructor
  · rw [rest.inserted, cut.inserted, List.append_assoc, List.singleton_append]
  · rw [List.map_cons, rest.bytes, kept.1, cut.front]
  · intro i bound
    cases i with
    | zero =>
      have more : sent ≠ [] := by
        rintro rfl
        exact some rest.bytes.symm
      have length := List.length_pos_of_ne_nil more
      have notLast : ¬0 + 1 = (chunk :: sent).length := by
        rw [List.length_cons]
        omega
      rw [List.getElem_cons_zero, kept.2, cut.own, decide_eq_false notLast]
    | succ i =>
      have same : (i + 1 + 1 = (chunk :: sent).length) ↔ (i + 1 = sent.length) := by
        rw [List.length_cons]
        omega
      rw [List.getElem_cons_succ, rest.heads i (Nat.lt_of_succ_lt_succ bound), cut.carries.1,
        cut.carries.2]
      simp only [same]
  · exact List.nodup_cons.mpr ⟨fun here => unused chunk here cut.member, rest.nodup⟩
  · exact List.mem_cons_self
  · intro each here
    rcases List.mem_cons.mp here with same | here
    · exact Or.inl same
    · exact Or.inr (unused each here)
  · intro each
    have member := cut.member
    have begins := rest.begins
    rw [rest.live, cut.live, Finset.mem_insert, List.mem_cons]
    grind
  · exact rest.owned
  · intro each here other
    have away : each ≠ temp := fun same => cut.fresh (same ▸ here)
    obtain ⟨bytes, heads⟩ := rest.others each (inside each here) away
    obtain ⟨bytes', heads'⟩ := cut.others each here other
    exact ⟨bytes.trans bytes', heads.trans heads'⟩

end Refined

namespace RefineConfig

variable (cfg : RefineConfig) {state : Refinery} {chunk : Nat}

/-- The reference counter of a chunk that is cut can count a reference for each piece. -/
def Countable (round : Nat) (heap : Heap) (chunk : Nat) : Prop :=
  ∀ c, heap.mem.owner chunk = some c → 1 < (cfg.pieces round (heap.mem.bytes chunk)).length →
    (heap.references c).card + (cfg.pieces round (heap.mem.bytes chunk)).length ≤ cfg.range

/-- A round that cuts a piece off. -/
theorem refineLoop_cut (owned : state.heap.Owned) (member : chunk ∈ state.heap.live) {round : Nat}
    (chcount : Nat) (splits : cfg.Splits round (state.heap.mem.bytes chunk))
    (room : ∀ c, state.heap.mem.owner chunk = some c →
      (state.heap.references c).card + 1 < cfg.range) :
    ∃ next temp, (∀ fuel, cfg.refineLoop (fuel + 1) round chcount state chunk =
        cfg.refineLoop fuel (round + 1) ((chcount + 1) % 2 ^ 32) next temp) ∧
      Cut (cfg.offset round (state.heap.mem.bytes chunk)).toNat chcount state next chunk temp ∧
      ∀ c, next.heap.mem.owner temp = some c → state.heap.mem.owner chunk = some c ∧
        (next.heap.references c).card = (state.heap.references c).card + 1 := by
  have length := owned.length_bytes member
  obtain ⟨positive, inside⟩ := splits
  have fresh := cfg.malloc_fresh round state.heap.live
  have before : 0 < (cfg.offset round (state.heap.mem.bytes chunk)).toNat := by omega
  have after : (cfg.offset round (state.heap.mem.bytes chunk)).toNat
      < (state.heap.mem.bufs chunk).n := by omega
  obtain ⟨heap, ran, owned', live, front, back, kept, count⟩ :=
    owned.cut member fresh before after room
  let temp := cfg.malloc round state.heap.live
  have apart : temp ≠ chunk := by
    intro same
    rw [← same] at member
    exact fresh member
  let copied := Function.update state.heads temp { state.heads temp with
    state := (state.heads chunk).state, l1num := (state.heads chunk).l1num }
  have old : copied chunk = state.heads chunk := Function.update_of_ne apart.symm _ _
  let heads := Function.update copied chunk { copied chunk with
    l2num := chcount, isLastL2Chunk := false }
  have second : heads temp = copied temp := Function.update_of_ne apart _ _
  refine ⟨⟨heap, heads, state.sent ++ [chunk]⟩, temp, fun fuel => ?_,
    ⟨member, fresh, live, owned', rfl, front, back, ?_, ?_, fun each here other => ?_⟩, count⟩
  · rw [refineLoop]
    simp only [positive.le, length ▸ inside, and_self, if_true, Option.bind_eq_bind]
    rw [ran]
    rfl
  · show Function.update copied chunk _ chunk = _
    rw [Function.update_self, old]
  · show (heads temp).state = _ ∧ (heads temp).l1num = _
    rw [second]
    simp only [copied, Function.update_self, and_self]
  · have away : each ≠ temp := by
      rintro rfl
      exact fresh here
    refine ⟨kept each here other, ?_⟩
    exact (Function.update_of_ne other _ _).trans (Function.update_of_ne away _ _)

/-- The counter can count a reference for each piece when there is room for one more and the counter
of what is left can. -/
theorem countable_of_splits {round : Nat} {next : Refinery} {temp : Nat} (own : ∃ c,
      next.heap.mem.owner temp = some c)
    (splits : cfg.Splits round (state.heap.mem.bytes chunk))
    (back : next.heap.mem.bytes temp = cfg.rest round (state.heap.mem.bytes chunk))
    (count : ∀ c, next.heap.mem.owner temp = some c → state.heap.mem.owner chunk = some c ∧
        (next.heap.references c).card = (state.heap.references c).card + 1) :
    cfg.Countable round state.heap chunk ↔
      (∀ c, state.heap.mem.owner chunk = some c →
        (state.heap.references c).card + 1 < cfg.range) ∧
      cfg.Countable (round + 1) next.heap temp := by
  obtain ⟨c, own⟩ := own
  obtain ⟨own', more⟩ := count c own
  have positive := cfg.length_pieces_pos (round + 1) (cfg.rest round (state.heap.mem.bytes chunk))
  unfold Countable
  rw [back, cfg.pieces_of_splits splits, List.length_cons, own, own']
  simp only [Option.some.injEq, forall_eq', more]
  omega

/-- A round that finds no anchor. -/
theorem refineLoop_last (owned : state.heap.Owned) (member : chunk ∈ state.heap.live)
    {round : Nat} (chcount : Nat) (found : cfg.offset round (state.heap.mem.bytes chunk) ≠ 0)
    (last : ¬cfg.Splits round (state.heap.mem.bytes chunk))
    (number : Nat → Nat) (own : number 0 = chcount) :
    ∃ after, (∀ fuel, cfg.refineLoop (fuel + 1) round chcount state chunk = some after) ∧
      Refined number [state.heap.mem.bytes chunk] state after chunk [chunk] := by
  let heads := Function.update state.heads chunk { state.heads chunk with
    l2num := chcount, isLastL2Chunk := true }
  refine ⟨{ state with heads := heads, sent := state.sent ++ [chunk] }, fun fuel => ?_, ?_⟩
  · have length := owned.length_bytes member
    have whole : ¬(0 ≤ cfg.offset round (state.heap.mem.bytes chunk) ∧
        cfg.offset round (state.heap.mem.bytes chunk) < (state.heap.mem.bufs chunk).n) :=
      fun inside => last ⟨lt_of_le_of_ne inside.1 found.symm, length ▸ inside.2⟩
    rw [refineLoop]
    simp only [whole, if_false]
    rfl
  · refine Refined.last owned member ?_ fun each other => Function.update_of_ne other _ _
    rw [own]
    exact Function.update_self ..

/-- The loop ends after at most one round for each byte, and has sent the pieces. -/
theorem refineLoop_refined (n : Nat) : ∀ (round : Nat) (state : Refinery) (chunk : Nat),
    state.heap.Owned → chunk ∈ state.heap.live → (state.heap.mem.bufs chunk).n = n →
    cfg.Found round (state.heap.mem.bytes chunk) → cfg.Countable round state.heap chunk →
    ∃ after sent,
      (∀ fuel, n ≤ fuel → cfg.refineLoop fuel round (round % 2 ^ 32) state chunk = some after) ∧
      Refined (fun i => (round + i) % 2 ^ 32)
        (cfg.pieces round (state.heap.mem.bytes chunk)) state after chunk sent := by
  induction n using Nat.strong_induction_on with
  | _ n ih =>
    intro round state chunk owned member size found counts
    have length := owned.length_bytes member
    obtain ⟨c, -, -, own, -, -, -, some, -⟩ := owned.control member
    by_cases splits : cfg.Splits round (state.heap.mem.bytes chunk)
    · have room : ∀ c, state.heap.mem.owner chunk = Option.some c →
          (state.heap.references c).card + 1 < cfg.range := by
        intro c own
        have positive := cfg.length_pieces_pos (round + 1)
          (cfg.rest round (state.heap.mem.bytes chunk))
        have bound := counts c own
        rw [cfg.pieces_of_splits splits, List.length_cons] at bound
        omega
      obtain ⟨next, temp, runs, cut, count⟩ :=
        cfg.refineLoop_cut owned member (round % 2 ^ 32) splits room
      have used : temp ∈ next.heap.live := cut.live ▸ Finset.mem_insert_self _ _
      have back : next.heap.mem.bytes temp = cfg.rest round (state.heap.mem.bytes chunk) := cut.back
      have shorter := splits.length_rest
      rw [← back, cut.owned.length_bytes used, length] at shorter
      obtain ⟨c', -, -, own', -⟩ := cut.owned.control used
      have counts' := ((cfg.countable_of_splits ⟨c', own'⟩ splits back count).mp counts).2
      have found' := (cfg.found_of_splits splits).mp found
      obtain ⟨after, sent, ends, refined⟩ :=
        ih _ (by omega) (round + 1) next temp cut.owned used rfl (back ▸ found') counts'
      refine ⟨after, chunk :: sent, fun fuel enough => ?_, ?_⟩
      · obtain ⟨fuel, rfl⟩ : ∃ less, fuel = less + 1 := ⟨fuel - 1, by omega⟩
        rw [runs, Nat.mod_add_mod]
        exact ends fuel (by omega)
      · have numbers : (fun i => (round + 1 + i) % 2 ^ 32) =
            fun i => (round + (i + 1)) % 2 ^ 32 := by
          funext i
          rw [Nat.add_assoc, Nat.add_comm 1 i]
        rw [numbers] at refined
        rw [cfg.pieces_of_splits splits, ← back]
        exact Refined.cons cut (cfg.pieces_ne_nil _ _) refined
    · obtain ⟨after, ends, refined⟩ := cfg.refineLoop_last owned member (round % 2 ^ 32)
        ((cfg.found_of_not splits).mp found) splits (fun i => (round + i) % 2 ^ 32) rfl
      refine ⟨after, [chunk], fun fuel enough => ?_, ?_⟩
      · obtain ⟨fuel, rfl⟩ : ∃ less, fuel = less + 1 := ⟨fuel - 1, by omega⟩
        exact ends fuel
      · rw [cfg.pieces_of_not splits]
        exact refined

/-- `FragmentRefine::compute` for a coarse chunk in use. -/
theorem refineChunk_refined (owned : state.heap.Owned) (member : chunk ∈ state.heap.live)
    (found : cfg.Found 0 (state.heap.mem.bytes chunk))
    (counts : cfg.Countable 0 state.heap chunk) :
    ∃ after sent, (∀ fuel, (state.heap.mem.bufs chunk).n ≤ fuel →
        cfg.refineChunk fuel state chunk = some after) ∧
      Refined (· % 2 ^ 32) (cfg.pieces 0 (state.heap.mem.bytes chunk)) state after chunk sent := by
  have refined := cfg.refineLoop_refined _ 0 state chunk owned member rfl found counts
  simpa only [refineChunk, Nat.zero_add, Nat.zero_mod] using refined

/-! ### Coarse chunks that are not refined -/

/-- A wrong counter stays wrong. -/
theorem refineLoop_undercounted (fuel : Nat) : ∀ (round chcount : Nat) (state : Refinery)
    (chunk : Nat) (after : Refinery), chunk ∈ state.heap.live → state.heap.Undercounted chunk →
    cfg.refineLoop fuel round chcount state chunk = some after → ¬after.heap.Owned := by
  induction fuel with
  | zero => exact fun _ _ _ _ _ _ _ ends => nomatch ends
  | succ fuel ih =>
    intro round chcount state chunk after member under ends
    have fresh := cfg.malloc_fresh round state.heap.live
    rw [refineLoop] at ends
    dsimp only at ends
    split at ends
    · obtain ⟨⟨done, heap⟩, ran, ends⟩ := Option.bind_eq_some_iff.mp ends
      have apart : cfg.malloc round state.heap.live ≠ chunk := fun same => fresh (same ▸ member)
      obtain ⟨c, mcb, own, control, below⟩ := under
      refine ih _ _ _ _ after ?_ ?_ ends
      · rw [(Heap.perform_split_counter ran own control).1]
        exact Finset.mem_insert_self _ _
      · have least := Nat.mod_le (mcb.i + 1) cfg.range
        exact Heap.undercounted_split ran apart fresh own control (by omega)
    · obtain rfl := Option.some.inj ends
      exact under.not_owned

/-- Where an offset is 0, or the counter cannot count a reference for each piece, the loop does not
end with the right counters. -/
theorem refineLoop_fails (fuel : Nat) : ∀ (round chcount : Nat) (state : Refinery) (chunk : Nat)
    (after : Refinery), state.heap.Owned → chunk ∈ state.heap.live →
    ¬(cfg.Found round (state.heap.mem.bytes chunk) ∧ cfg.Countable round state.heap chunk) →
    cfg.refineLoop fuel round chcount state chunk = some after → ¬after.heap.Owned := by
  induction fuel with
  | zero => exact fun _ _ _ _ _ _ _ _ ends => nomatch ends
  | succ fuel ih =>
    intro round chcount state chunk after owned member fails ends
    have length := owned.length_bytes member
    have fresh := cfg.malloc_fresh round state.heap.live
    obtain ⟨c, mcb, -, own, control, -, -, some, -, count, -⟩ := owned.control member
    by_cases splits : cfg.Splits round (state.heap.mem.bytes chunk)
    · by_cases room : ∀ c, state.heap.mem.owner chunk = Option.some c →
          (state.heap.references c).card + 1 < cfg.range
      · obtain ⟨next, temp, runs, cut, counted⟩ :=
          cfg.refineLoop_cut owned member chcount splits room
        have used : temp ∈ next.heap.live := cut.live ▸ Finset.mem_insert_self _ _
        have back : next.heap.mem.bytes temp = cfg.rest round (state.heap.mem.bytes chunk) :=
          cut.back
        obtain ⟨c', -, -, own', -⟩ := cut.owned.control used
        rw [cfg.found_of_splits splits, cfg.countable_of_splits ⟨c', own'⟩ splits back counted,
          ← back] at fails
        rw [runs] at ends
        exact ih _ _ next temp after cut.owned used
          (fun both => fails ⟨both.1, room, both.2⟩) ends
      · -- the counter of the coarse chunk has its greatest value
        have full : cfg.range ≤ (state.heap.references c).card + 1 := by
          by_contra below
          refine room fun c' own' => ?_
          obtain rfl := Option.some.inj (own.symm.trans own')
          omega
        rw [refineLoop] at ends
        dsimp only at ends
        rw [if_pos ⟨splits.1.le, length ▸ splits.2⟩] at ends
        obtain ⟨⟨done, heap⟩, ran, ends⟩ := Option.bind_eq_some_iff.mp ends
        have apart : cfg.malloc round state.heap.live ≠ chunk := fun same => fresh (same ▸ member)
        refine cfg.refineLoop_undercounted fuel _ _ _ _ after ?_ ?_ ends
        · rw [(Heap.perform_split_counter ran own control).1]
          exact Finset.mem_insert_self _ _
        · have small := Nat.mod_lt (mcb.i + 1) cfg.range_pos
          exact Heap.undercounted_split ran apart fresh own control (by omega)
    · have countable : cfg.Countable round state.heap chunk := by
        intro _ _ more
        rw [cfg.pieces_of_not splits] at more
        exact absurd more (lt_irrefl 1)
      have zero : cfg.offset round (state.heap.mem.bytes chunk) = 0 := by
        by_contra found
        exact fails ⟨(cfg.found_of_not splits).mpr found, countable⟩
      rw [refineLoop] at ends
      dsimp only at ends
      rw [if_pos ⟨zero.ge, by omega⟩, zero, Int.toNat_zero, Heap.perform_split_zero] at ends
      exact nomatch ends

/-- An `int` holds the offsets of a search that is the same in all rounds, in data of less than 2^31
bytes. -/
theorem splits_of_short (pipe : PipeConfig)
    (same : ∀ round data, cfg.rabinseg round data = pipe.rabinseg data)
    (bounded : ∀ data, pipe.rabinseg data ≤ data.length) (round : Nat) {data : Bytes}
    (short : data.length < 2 ^ 31) : cfg.offset round data = pipe.rabinseg data ∧
      (cfg.Splits round data ↔ pipe.rabinseg data < data.length) := by
  have offset : cfg.offset round data = pipe.rabinseg data := by
    rw [RefineConfig.offset, same, toInt_of_lt (lt_of_le_of_lt (bounded data) short)]
  refine ⟨offset, ?_⟩
  have positive := pipe.rabinseg_pos data
  unfold Splits
  rw [offset]
  omega

/-- No offset is 0 there. -/
theorem found_of_short (pipe : PipeConfig)
    (same : ∀ round data, cfg.rabinseg round data = pipe.rabinseg data)
    (bounded : ∀ data, pipe.rabinseg data ≤ data.length) (round : Nat) (data : Bytes)
    (some : data ≠ []) (short : data.length < 2 ^ 31) : cfg.Found round data := by
  induction round, data using pieces.induct cfg with
  | case1 round data splits ih =>
    have shorter := splits.length_rest
    have inside := splits.2
    refine (cfg.found_of_splits splits).mpr (ih ?_ (by omega))
    apply List.ne_nil_of_length_pos
    rw [rest, List.length_drop]
    omega
  | case2 round data last =>
    obtain ⟨offset, splits⟩ := cfg.splits_of_short pipe same bounded round short
    have positive := List.length_pos_of_ne_nil some
    rw [splits] at last
    rw [cfg.found_of_not (splits.not.mpr last), offset]
    omega

/-- The pieces with their numbers and flags, for such a search. -/
theorem refineFrom_eq (pipe : PipeConfig)
    (same : ∀ round data, cfg.rabinseg round data = pipe.rabinseg data)
    (bounded : ∀ data, pipe.rabinseg data ≤ data.length) (l1num round : Nat) (data : Bytes)
    (short : data.length < 2 ^ 31) : refineFrom pipe l1num (round % 2 ^ 32) data =
      (cfg.pieces round data).mapIdx fun i piece =>
        ⟨⟨⟨l1num, (round + i) % 2 ^ 32⟩, decide (i + 1 = (cfg.pieces round data).length)⟩,
          piece⟩ := by
  induction round, data using pieces.induct cfg with
  | case1 round data splits ih =>
    obtain ⟨offset, splits'⟩ := cfg.splits_of_short pipe same bounded round short
    have more := cfg.length_pieces_pos (round + 1) (cfg.rest round data)
    have notLast : ¬0 + 1 = (cfg.pieces (round + 1) (cfg.rest round data)).length + 1 := by omega
    have shorter := splits.length_rest
    have back : data.drop (pipe.rabinseg data) = cfg.rest round data := by
      rw [rest, offset, Int.toNat_natCast]
    have first : data.take (pipe.rabinseg data) = cfg.front round data := by
      rw [front, offset, Int.toNat_natCast]
    rw [refineFrom, dif_pos (splits'.mp splits), Nat.mod_add_mod, back, first, ih (by omega),
      cfg.pieces_of_splits splits, List.mapIdx_cons, List.length_cons, decide_eq_false notLast]
    congr 1
    refine congrArg (fun f => List.mapIdx f _) (funext fun i => funext fun piece => ?_)
    rw [Nat.add_assoc, Nat.add_comm 1 i]
    simp only [Nat.add_right_cancel_iff]
  | case2 round data last =>
    obtain ⟨-, splits⟩ := cfg.splits_of_short pipe same bounded round short
    rw [refineFrom, dif_neg (splits.not.mp last), cfg.pieces_of_not last]
    rfl

/-- The chunks that the loop has sent are those of `refine`, for such a search. -/
theorem refineChunk_views (pipe : PipeConfig)
    (same : ∀ round data, cfg.rabinseg round data = pipe.rabinseg data)
    (bounded : ∀ data, pipe.rabinseg data ≤ data.length)
    (owned : state.heap.Owned) (member : chunk ∈ state.heap.live)
    (short : (state.heap.mem.bufs chunk).n < 2 ^ 31) (counts : cfg.Countable 0 state.heap chunk) :
    ∃ after sent, (∀ fuel, (state.heap.mem.bufs chunk).n ≤ fuel →
        cfg.refineChunk fuel state chunk = some after) ∧ after.sent = state.sent ++ sent ∧
      sent.map after.view = refine pipe (state.view chunk) := by
  have length := owned.length_bytes member
  obtain ⟨-, -, -, -, -, -, -, positive, -⟩ := owned.control member
  rw [← length] at short positive
  obtain ⟨after, sent, ends, refined⟩ := cfg.refineChunk_refined owned member
    (cfg.found_of_short pipe same bounded 0 _ (List.ne_nil_of_length_pos positive) short) counts
  refine ⟨after, sent, ends, refined.inserted, ?_⟩
  have whole := cfg.refineFrom_eq pipe same bounded (state.heads chunk).l1num 0
    (state.heap.mem.bytes chunk) short
  rw [Nat.zero_mod, ← refined.bytes] at whole
  refine Eq.trans ?_ whole.symm
  refine List.ext_getElem (by simp) fun i inside _ => ?_
  rw [List.length_map] at inside
  simp only [List.getElem_map, List.getElem_mapIdx, List.length_map, Nat.zero_add, Refinery.view,
    refined.heads i inside]

/-- The loop ends after at most one round for each byte. The chunks that it has sent are the coarse
chunk and new ones; they are not empty and concatenate to the coarse chunk, they have its
first-level number and are numbered, the last one and no other is marked, the reference counters are
right, and no other chunk in use has changed. -/
def Refines (state : Refinery) (chunk : Nat) : Prop :=
  ∃ after sent, (∀ fuel, (state.heap.mem.bufs chunk).n ≤ fuel →
      cfg.refineChunk fuel state chunk = some after) ∧
    after.sent = state.sent ++ sent ∧ sent.Nodup ∧
    (∀ piece ∈ sent, piece = chunk ∨ piece ∉ state.heap.live) ∧
    (∀ piece ∈ sent, after.heap.mem.bytes piece ≠ []) ∧
    (sent.map after.heap.mem.bytes).flatten = state.heap.mem.bytes chunk ∧
    (∀ piece ∈ sent, (after.heads piece).l1num = (state.heads chunk).l1num) ∧
    (∀ i (inside : i < sent.length), (after.heads sent[i]).l2num = i ∧
      ((after.heads sent[i]).isLastL2Chunk = true ↔ i + 1 = sent.length)) ∧
    after.heap.Owned ∧
    (∀ each, each ∈ after.heap.live ↔ each ∈ state.heap.live ∨ each ∈ sent) ∧
    ∀ each ∈ state.heap.live, each ≠ chunk →
      after.heap.mem.bytes each = state.heap.mem.bytes each ∧ after.heads each = state.heads each

/-- A coarse chunk is not refined where an offset is 0 or the counter cannot count the pieces. -/
theorem not_refines (owned : state.heap.Owned) (member : chunk ∈ state.heap.live)
    (fails : ¬(cfg.Found 0 (state.heap.mem.bytes chunk) ∧ cfg.Countable 0 state.heap chunk)) :
    ¬cfg.Refines state chunk := by
  rintro ⟨after, sent, ends, -, -, -, -, -, -, -, owned', -⟩
  exact cfg.refineLoop_fails _ 0 0 state chunk after owned member fails (ends _ le_rfl) owned'

/-- A coarse chunk in use is refined exactly when no offset is 0, the counter can count a reference
for each piece, and each piece has a number of 32 bits. -/
theorem fragmentRefine_correct_iff (state : Refinery) (chunk : Nat) (owned : state.heap.Owned)
    (member : chunk ∈ state.heap.live) :
    cfg.Refines state chunk ↔ cfg.Found 0 (state.heap.mem.bytes chunk) ∧
      cfg.Countable 0 state.heap chunk ∧
      (cfg.pieces 0 (state.heap.mem.bytes chunk)).length ≤ 2 ^ 32 := by
  by_cases both : cfg.Found 0 (state.heap.mem.bytes chunk) ∧ cfg.Countable 0 state.heap chunk
  · obtain ⟨after, sent, ends, refined⟩ := cfg.refineChunk_refined owned member both.1 both.2
    have length : sent.length = (cfg.pieces 0 (state.heap.mem.bytes chunk)).length := by
      rw [← refined.bytes, List.length_map]
    rw [and_iff_right both.1, and_iff_right both.2, ← length]
    constructor
    · rintro ⟨after', sent', ends', inserted, -, -, -, -, -, numbers, -⟩
      obtain rfl := Option.some.inj ((ends _ le_rfl).symm.trans (ends' _ le_rfl))
      obtain rfl : sent = sent' :=
        List.append_cancel_left (refined.inserted.symm.trans inserted)
      by_contra above
      -- the piece behind the first `2 ^ 32` ones has the number 0 again
      have number := (numbers (2 ^ 32) (by omega)).1
      rw [refined.heads (2 ^ 32) (by omega)] at number
      exact absurd number (by norm_num)
    · intro few
      have some : state.heap.mem.bytes chunk ≠ [] := by
        obtain ⟨-, -, -, -, -, -, -, positive, -⟩ := owned.control member
        rw [← owned.length_bytes member] at positive
        exact List.ne_nil_of_length_pos positive
      refine ⟨after, sent, ends, refined.inserted, refined.nodup, refined.new,
        fun piece inside => ?_, ?_, fun piece inside => ?_, fun i inside => ?_, refined.owned,
        refined.live, refined.others⟩
      · have held := List.mem_map_of_mem (f := after.heap.mem.bytes) inside
        rw [refined.bytes] at held
        exact cfg.ne_nil_of_mem_pieces some _ held
      · rw [refined.bytes, cfg.flatten_pieces]
      · obtain ⟨i, bound, rfl⟩ := List.getElem_of_mem inside
        rw [refined.heads i bound]
      · rw [refined.heads i inside]
        exact ⟨Nat.mod_eq_of_lt (by omega), decide_eq_true_iff⟩
  · exact iff_of_false (cfg.not_refines owned member both)
      fun all => both ⟨all.1, all.2.1⟩

/-- An anchor behind every byte, and counters of 32 bits. -/
def everyByte : RefineConfig where
  range := 2 ^ 32
  range_pos := by norm_num
  rabinseg _ _ := 1
  malloc _ used := used.sup id + 1
  malloc_fresh _ _ member := absurd (Finset.le_sup (f := id) member) (Nat.not_succ_le_self _)

/-- No offset is 0 where an anchor is behind every byte. -/
theorem everyByte_found (round : Nat) (data : Bytes) : everyByte.Found round data := by
  have offset : ∀ round data, everyByte.offset round data ≠ 0 := fun round data => by
    have one : everyByte.rabinseg round data = 1 := rfl
    rw [RefineConfig.offset, one, toInt_of_lt (by decide)]
    exact one_ne_zero
  induction round, data using pieces.induct everyByte with
  | case1 round data splits ih => exact (everyByte.found_of_splits splits).mpr ih
  | case2 round data last => exact (everyByte.found_of_not last).mpr (offset round data)

end RefineConfig

/-- A stage with one coarse chunk of some length. -/
def Refinery.single (n : Nat) : Refinery where
  heap :=
    { mem :=
        { blocks := Function.update Heap.empty.mem.blocks 0 (some (List.replicate n 0))
          mcbs := Function.update Heap.empty.mem.mcbs 0 (some ⟨1, 0⟩)
          bufs := Function.update Heap.empty.mem.bufs 0 ⟨(0, 0), n, some 0⟩ }
      live := {0} }
  heads _ := ⟨.uncompressed, 0, 0, false⟩
  sent := []

namespace Refinery

variable {n : Nat}

/-- The chunk has been made by `mbuffer_create`. -/
theorem single_owned (positive : 0 < n) : (single n).heap.Owned := by
  have length : (List.replicate n (0 : UInt8)).length = n := List.length_replicate
  have some : 0 < (List.replicate n (0 : UInt8)).length := length.symm ▸ positive
  have made := Heap.empty_owned.created (m := 0) (c := 0) (a := 0) (Finset.notMem_empty 0) rfl rfl
    some
  rw [length] at made
  exact made

/-- The bytes of the chunk. -/
theorem bytes_single : (single n).heap.mem.bytes 0 = List.replicate n 0 := by
  simp [single, Memory.bytes]

/-- The chunk is cut into its bytes. -/
theorem length_pieces_single (positive : 0 < n) :
    (RefineConfig.everyByte.pieces 0 ((single n).heap.mem.bytes 0)).length = n := by
  rw [RefineConfig.length_pieces_of_one _ (fun _ _ => rfl), bytes_single, List.length_replicate]
  rw [bytes_single]
  exact List.ne_nil_of_length_pos (by rwa [List.length_replicate])

/-- The only reference to the memory is that of the chunk. -/
theorem card_references_single : ((single n).heap.references 0).card = 1 := by
  rw [Heap.references, Lib.holders, Finset.card_filter]
  simp [single, Memory.owner]

/-- The counter can count a reference for each byte where there are less than 2^32. -/
theorem single_countable (positive : 0 < n) :
    RefineConfig.everyByte.Countable 0 (single n).heap 0 ↔ n = 1 ∨ n < 2 ^ 32 := by
  have own : (single n).heap.mem.owner 0 = some 0 := by simp [single, Memory.owner]
  have range : RefineConfig.everyByte.range = 2 ^ 32 := rfl
  unfold RefineConfig.Countable
  rw [length_pieces_single positive, own, range]
  simp only [Option.some.injEq, forall_eq', card_references_single]
  omega

end Refinery

namespace RefineConfig

/-- Three pieces of one byte. -/
theorem fragmentRefine_correct_sample : everyByte.Refines (Refinery.single 3) 0 :=
  (everyByte.fragmentRefine_correct_iff _ 0 (Refinery.single_owned (by decide))
    (Finset.mem_singleton_self 0)).mpr ⟨everyByte_found _ _,
      (Refinery.single_countable (by decide)).mpr (.inr (by norm_num)),
      by rw [Refinery.length_pieces_single (by decide)]; norm_num⟩

/-- A chunk of 2^32 + 1 bytes is not refined when there is an anchor behind every byte. -/
theorem fragmentRefine_fails : (Refinery.single (2 ^ 32 + 1)).heap.Owned ∧
    ¬everyByte.Refines (Refinery.single (2 ^ 32 + 1)) 0 := by
  have owned := Refinery.single_owned (n := 2 ^ 32 + 1) (by decide)
  refine ⟨owned, everyByte.not_refines owned (Finset.mem_singleton_self 0) fun both => ?_⟩
  have small := (Refinery.single_countable (n := 2 ^ 32 + 1) (by decide)).mp both.2
  omega

end RefineConfig

end P3arsec.Dedup
