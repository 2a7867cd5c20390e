import P3arsec.Dedup.Encoder
import P3arsec.Lib.Holders
import P3arsec.Lib.Run

/-!
# Reference-counted memory buffers

An `mbuffer_t` is a part of a block of memory. A block has a memory control block with the number of
buffers that refer to it; a clone and the second piece of a split are further references, and the
last buffer that is freed frees the block. `malloc` and `realloc` return any unused address, or no
memory. A call faults where it uses memory that is not allocated, frees a block twice or fails in an
assertion.

The counter is right as long as it can count the references (`Owned`): it counts up to the range of
its type, and `mbuffer_free` compares it as an `unsigned int`.
-/

namespace P3arsec.Dedup

open P3arsec.Lib

/-- A pointer to a byte: a block and an offset in it. -/
abbrev Pointer := Nat × Nat

/-- `mcb_t`, the memory control block of a block. -/
structure Mcb where
  /-- `i`, the number of references. -/
  i : Nat
  /-- `ptr`, the block. -/
  ptr : Nat
  deriving DecidableEq, Repr

/-- `mbuffer_t`. -/
structure Mbuffer where
  /-- `ptr`. -/
  ptr : Pointer
  /-- `n`. -/
  n : Nat
  /-- `mcb`, none for a null pointer. -/
  mcb : Option Nat
  deriving DecidableEq, Repr

/-- The memory that the buffers use. -/
structure Memory where
  /-- The bytes of the allocated blocks. -/
  blocks : Nat → Option Bytes
  /-- The allocated control blocks. -/
  mcbs : Nat → Option Mcb
  /-- The `mbuffer_t` at an address. -/
  bufs : Nat → Mbuffer

namespace Memory

variable (range : Nat) (mem : Memory)

/-- `free` of a block. -/
def freeBlock (block : Nat) : Option Memory := do
  let _ ← mem.blocks block
  return { mem with blocks := Function.update mem.blocks block none }

/-- `mbuffer_create`, with what `malloc` returns for the block and for the control block. -/
def create (m size : Nat) (data : Option (Nat × Bytes)) (mcb : Option Nat) :
    Option (Bool × Memory) := do
  guard (0 < size)
  match data with
  | none => return (false, mem)
  | some (ptr, garbage) =>
    let mem := { mem with blocks := Function.update mem.blocks ptr (some garbage) }
    match mcb with
    | none =>
      let mem ← mem.freeBlock ptr
      return (false, { mem with
        bufs := Function.update mem.bufs m { mem.bufs m with mcb := none } })
    | some mcb =>
      return (true, { mem with
        mcbs := Function.update mem.mcbs mcb (some ⟨1, ptr⟩)
        bufs := Function.update mem.bufs m ⟨(ptr, 0), size, some mcb⟩ })

/-- `assert(m->mcb->i>=1); m->mcb->i++;`, for a counter with some number of values. -/
def retain (m : Nat) : Option Memory := do
  let c ← (mem.bufs m).mcb
  let mcb ← mem.mcbs c
  guard (1 ≤ mcb.i)
  return { mem with
    mcbs := Function.update mem.mcbs c (some { mcb with i := (mcb.i + 1) % range }) }

/-- `mbuffer_clone`, with what `malloc` returns. -/
def clone (m : Nat) (temp : Option Nat) : Option (Bool × Memory) :=
  match temp with
  | none => some (false, mem)
  | some temp => do
    let mem ← mem.retain range m
    return (true, { mem with bufs := Function.update mem.bufs temp (mem.bufs m) })

/-- Bytes that are read from a pointer on. -/
def read (ptr : Pointer) (n : Nat) : Option Bytes := do
  let data ← mem.blocks ptr.1
  guard (ptr.2 + n ≤ data.length)
  return (data.drop ptr.2).take n

/-- Bytes that are written from a pointer on. -/
def write (ptr : Pointer) (bytes : Bytes) : Option Memory := do
  let data ← mem.blocks ptr.1
  guard (ptr.2 + bytes.length ≤ data.length)
  return { mem with
    blocks := Function.update mem.blocks ptr.1
      (some (data.take ptr.2 ++ bytes ++ data.drop (ptr.2 + bytes.length))) }

/-- `mbuffer_copy`, with what `malloc` returns. -/
def copy (m : Nat) (temp : Option Nat) (data : Option (Nat × Bytes)) (mcb : Option Nat) :
    Option (Bool × Memory) := do
  guard (1 ≤ (mem.bufs m).n)
  match temp with
  | none => return (false, mem)
  | some temp =>
    let (created, mem) ← mem.create temp (mem.bufs m).n data mcb
    if created then
      let bytes ← mem.read (mem.bufs m).ptr (mem.bufs m).n
      let mem ← mem.write (mem.bufs temp).ptr bytes
      return (true, mem)
    else return (false, mem)

/-- `mbuffer_free`. -/
def free (m : Nat) : Option Memory := do
  let c ← (mem.bufs m).mcb
  let mcb ← mem.mcbs c
  let i := if mcb.i = 0 then range - 1 else mcb.i - 1
  let mem := { mem with mcbs := Function.update mem.mcbs c (some { mcb with i := i }) }
  let ref := i % 2 ^ 32
  if ref = 0 then
    let mem ← mem.freeBlock mcb.ptr
    return { mem with
      mcbs := Function.update mem.mcbs c none
      bufs := Function.update mem.bufs m { mem.bufs m with mcb := none } }
  else return mem

/-- `mbuffer_realloc`, with what `realloc` returns: the new block, and its bytes behind those that
it keeps. -/
def realloc (m size : Nat) (data : Option (Nat × Bytes)) : Option (Bool × Memory) := do
  guard (0 < size)
  let c ← (mem.bufs m).mcb
  let mcb ← mem.mcbs c
  if 1 < mcb.i then return (false, mem)
  else if (mem.bufs m).ptr ≠ (mcb.ptr, 0) then return (false, mem)
  else
    let old ← mem.blocks mcb.ptr
    match data with
    | none => return (false, mem)
    | some (r, garbage) =>
      return (true, {
        blocks := Function.update (Function.update mem.blocks mcb.ptr none) r
          (some (old.take size ++ garbage))
        mcbs := Function.update mem.mcbs c (some { mcb with ptr := r })
        bufs := Function.update mem.bufs m { mem.bufs m with ptr := (r, 0), n := size } })

/-- `mbuffer_split`. -/
def split (m1 m2 split : Nat) : Option Memory := do
  guard (0 < split ∧ split < (mem.bufs m1).n)
  let mem ← mem.retain range m1
  let buf := mem.bufs m1
  return { mem with
    bufs := Function.update
      (Function.update mem.bufs m2 ⟨(buf.ptr.1, buf.ptr.2 + split), buf.n - split, buf.mcb⟩)
      m1 { buf with n := split } }

/-- The bytes of a buffer. -/
def bytes (m : Nat) : Bytes :=
  match mem.blocks (mem.bufs m).ptr.1 with
  | none => []
  | some data => (data.drop (mem.bufs m).ptr.2).take (mem.bufs m).n

/-- The control block that a buffer refers to. -/
def owner (m : Nat) : Option Nat := (mem.bufs m).mcb

end Memory

/-- The memory, and the buffers that are in use. -/
structure Heap where
  /-- The memory. -/
  mem : Memory
  /-- The addresses of the buffers that have been made and not freed. -/
  live : Finset Nat

/-- A call, with what the allocations in it return. -/
inductive MbufferCall where
  /-- `mbuffer_create`. -/
  | create (m size : Nat) (data : Option (Nat × Bytes)) (mcb : Option Nat)
  /-- `mbuffer_clone`. -/
  | clone (m : Nat) (temp : Option Nat)
  /-- `mbuffer_copy`. -/
  | copy (m : Nat) (temp : Option Nat) (data : Option (Nat × Bytes)) (mcb : Option Nat)
  /-- `mbuffer_split`. -/
  | split (m1 m2 split : Nat)
  /-- `mbuffer_realloc`. -/
  | realloc (m size : Nat) (data : Option (Nat × Bytes))
  /-- `mbuffer_free`. -/
  | free (m : Nat)

namespace Heap

variable (range : Nat) (heap : Heap)

/-- The memory before the first call. -/
def empty : Heap := ⟨⟨fun _ => none, fun _ => none, fun _ => ⟨(0, 0), 0, none⟩⟩, ∅⟩

/-- A call, with the information that it succeeded. -/
def perform : MbufferCall → Option (Bool × Heap)
  | .create m size data mcb => do
    let (done, mem) ← heap.mem.create m size data mcb
    return (done, ⟨mem, if done then insert m heap.live else heap.live⟩)
  | .clone m temp => do
    let (done, mem) ← heap.mem.clone range m temp
    return (done, ⟨mem, temp.elim heap.live (insert · heap.live)⟩)
  | .copy m temp data mcb => do
    let (done, mem) ← heap.mem.copy m temp data mcb
    return (done, ⟨mem, if done then temp.elim heap.live (insert · heap.live) else heap.live⟩)
  | .split m1 m2 split => do
    let mem ← heap.mem.split range m1 m2 split
    return (true, ⟨mem, insert m2 heap.live⟩)
  | .realloc m size data => do
    let (done, mem) ← heap.mem.realloc m size data
    return (done, ⟨mem, heap.live⟩)
  | .free m => do
    let mem ← heap.mem.free range m
    return (true, ⟨mem, heap.live.erase m⟩)

/-- `malloc` returns a block that is not in use, of the size that is wanted. -/
def Mallocs (size : Nat) (data : Option (Nat × Bytes)) (mcb : Option Nat) : Prop :=
  (∀ block ∈ data, heap.mem.blocks block.1 = none ∧ block.2.length = size) ∧
    ∀ c ∈ mcb, heap.mem.mcbs c = none

/-- The call uses live buffers, makes one at an address where there is none, and satisfies the
assertions about its arguments. The allocations return memory that is not in use. -/
def Legal : MbufferCall → Prop
  | .create m size data mcb => m ∉ heap.live ∧ 0 < size ∧ heap.Mallocs size data mcb
  | .clone m temp => m ∈ heap.live ∧ ∀ t ∈ temp, t ∉ heap.live
  | .copy m temp data mcb => m ∈ heap.live ∧ (∀ t ∈ temp, t ∉ heap.live) ∧
      heap.Mallocs (heap.mem.bufs m).n data mcb
  | .split m1 m2 split => m1 ∈ heap.live ∧ m2 ∉ heap.live ∧ 0 < split ∧
      split < (heap.mem.bufs m1).n
  | .realloc m size data => m ∈ heap.live ∧ 0 < size ∧ ∀ block ∈ data,
      (block.1 = (heap.mem.bufs m).ptr.1 ∨ heap.mem.blocks block.1 = none) ∧
        ∀ old ∈ heap.mem.blocks (heap.mem.bufs m).ptr.1, (old.take size ++ block.2).length = size
  | .free m => m ∈ heap.live

/-- The live buffers that refer to a control block. -/
def references (c : Nat) : Finset Nat := holders heap.live heap.mem.owner c

end Heap

/-- The buffer is a part of another one. -/
def Mbuffer.Part (part whole : Mbuffer) : Prop :=
  part.mcb = whole.mcb ∧ part.ptr.1 = whole.ptr.1 ∧ 0 < part.n ∧
    part.ptr.2 + part.n ≤ whole.ptr.2 + whole.n

/-- The live buffers lie in the allocated blocks: `place` is the block of a control block. -/
structure Placed (blocks : Nat → Option Bytes) (place : Nat → Option Nat) (bufs : Nat → Mbuffer)
    (live : Finset Nat) : Prop where
  /-- A control block has a live buffer. -/
  used : ∀ c a, place c = some a → ∃ m ∈ live, (bufs m).mcb = some c
  /-- A live buffer lies in the block of its control block. -/
  inside : ∀ m ∈ live, ∃ c data, (bufs m).mcb = some c ∧ place c = some (bufs m).ptr.1 ∧
    blocks (bufs m).ptr.1 = some data ∧ 0 < (bufs m).n ∧
    (bufs m).ptr.2 + (bufs m).n ≤ data.length
  /-- The allocated blocks are those of the control blocks. -/
  allocated : ∀ a, (blocks a).isSome = true ↔ ∃ c, place c = some a
  /-- Each control block has its own block. -/
  apart : ∀ c c' a, place c = some a → place c' = some a → c = c'

namespace Placed

variable {blocks : Nat → Option Bytes} {place : Nat → Option Nat} {bufs bufs' : Nat → Mbuffer}
variable {live : Finset Nat} {m t c a : Nat}

/-- A block is allocated as long as a live buffer lies in it. -/
theorem isSome_iff (placed : Placed blocks place bufs live) (a : Nat) :
    (blocks a).isSome = true ↔ ∃ m ∈ live, (bufs m).ptr.1 = a := by
  rw [placed.allocated]
  constructor
  · rintro ⟨c, here⟩
    obtain ⟨m, member, own⟩ := placed.used c a here
    obtain ⟨c', data, own', there, -⟩ := placed.inside m member
    obtain rfl := Option.some.inj (own.symm.trans own')
    exact ⟨m, member, Option.some.inj (there.symm.trans here)⟩
  · rintro ⟨m, member, rfl⟩
    obtain ⟨c, data, -, here, -⟩ := placed.inside m member
    exact ⟨c, here⟩

/-- A new buffer in a new block. -/
theorem create (placed : Placed blocks place bufs live) (fresh : m ∉ live)
    (unused : blocks a = none) (unused' : place c = none) {data : Bytes} (some : 0 < data.length) :
    Placed (Function.update blocks a (Option.some data)) (Function.update place c (Option.some a))
      (Function.update bufs m ⟨(a, 0), data.length, Option.some c⟩) (insert m live) := by
  have apart : ∀ c', place c' ≠ Option.some a := by
    intro c' here
    have allocated := (placed.allocated a).mpr ⟨c', here⟩
    rw [unused] at allocated
    exact nomatch allocated
  have others : ∀ each ∈ live, each ≠ m := fun each member same => fresh (same ▸ member)
  refine ⟨fun c' a' here => ?_, fun each member => ?_, fun a' => ?_, fun c' c'' a' here there => ?_⟩
  · by_cases own : c' = c
    · exact ⟨m, Finset.mem_insert_self m live, by simp [own]⟩
    · rw [Function.update_of_ne own] at here
      obtain ⟨each, member, holds⟩ := placed.used c' a' here
      refine ⟨each, Finset.mem_insert_of_mem member, ?_⟩
      rwa [Function.update_of_ne (others each member)]
  · rcases Finset.mem_insert.mp member with rfl | member
    · exact ⟨c, data, by simp, by simp, by simp, by simpa using some, by simp⟩
    · obtain ⟨c', data', own, here, bytes, bounds⟩ := placed.inside each member
      have apartC : c' ≠ c := by
        rintro rfl
        rw [unused'] at here
        exact nomatch here
      have apartA : (bufs each).ptr.1 ≠ a := fun same => apart c' (same ▸ here)
      rw [Function.update_of_ne (others each member)]
      refine ⟨c', data', own, ?_, ?_, bounds⟩
      · rwa [Function.update_of_ne apartC]
      · rwa [Function.update_of_ne apartA]
  · by_cases own : a' = a
    · subst own
      simpa using ⟨c, by simp⟩
    · rw [Function.update_of_ne own, placed.allocated]
      constructor
      · rintro ⟨c', here⟩
        have apartC : c' ≠ c := by
          rintro rfl
          rw [unused'] at here
          exact nomatch here
        exact ⟨c', by rwa [Function.update_of_ne apartC]⟩
      · rintro ⟨c', here⟩
        by_cases same : c' = c
        · subst same
          rw [Function.update_self] at here
          exact absurd (Option.some.inj here).symm own
        · exact ⟨c', by rwa [Function.update_of_ne same] at here⟩
  · by_cases own : c' = c <;> by_cases own' : c'' = c
    · rw [own, own']
    · subst own
      rw [Function.update_self] at here
      rw [Function.update_of_ne own', ← here] at there
      exact absurd there (apart c'')
    · subst own'
      rw [Function.update_self] at there
      rw [Function.update_of_ne own, ← there] at here
      exact absurd here (apart c')
    · rw [Function.update_of_ne own] at here
      rw [Function.update_of_ne own'] at there
      exact placed.apart c' c'' a' here there

/-- A part of a live buffer becomes a buffer of its own, and the others shrink or stay. -/
theorem share (placed : Placed blocks place bufs live) (member : m ∈ live)
    (parts : ∀ each ∈ live, (bufs' each).Part (bufs each)) (part : (bufs' t).Part (bufs m)) :
    Placed blocks place bufs' (insert t live) := by
  refine ⟨fun c a here => ?_, fun each inside => ?_, placed.allocated, placed.apart⟩
  · obtain ⟨each, inside, own⟩ := placed.used c a here
    exact ⟨each, Finset.mem_insert_of_mem inside, (parts each inside).1.trans own⟩
  · have whole : ∃ source ∈ live, (bufs' each).Part (bufs source) := by
      rcases Finset.mem_insert.mp inside with rfl | inside
      · exact ⟨m, member, part⟩
      · exact ⟨each, inside, parts each inside⟩
    obtain ⟨source, inside, own, block, some, bound⟩ := whole
    obtain ⟨c, data, holds, here, bytes, -, room⟩ := placed.inside source inside
    exact ⟨c, data, own.trans holds, block ▸ here, block ▸ bytes, some, bound.trans room⟩

/-- A buffer goes away, and another one still refers to its block. -/
theorem release (placed : Placed blocks place bufs live) {other : Nat} (member : other ∈ live)
    (apart : other ≠ m) (same : (bufs other).mcb = (bufs m).mcb) :
    Placed blocks place bufs (live.erase m) := by
  refine ⟨fun c a here => ?_,
    fun each inside => placed.inside each (Finset.mem_of_mem_erase inside), placed.allocated,
      placed.apart⟩
  obtain ⟨each, inside, own⟩ := placed.used c a here
  by_cases last : each = m
  · exact ⟨other, Finset.mem_erase.mpr ⟨apart, member⟩, same.trans (last ▸ own)⟩
  · exact ⟨each, Finset.mem_erase.mpr ⟨last, inside⟩, own⟩

/-- The last buffer of a block goes away with the block. -/
theorem releaseLast (placed : Placed blocks place bufs live) (here : place c = some a)
    (last : ∀ each ∈ live.erase m, (bufs each).mcb ≠ some c)
    (same : ∀ each ∈ live.erase m, bufs' each = bufs each) (own : (bufs m).mcb = some c) :
    Placed (Function.update blocks a none) (Function.update place c none) bufs' (live.erase m) := by
  refine ⟨fun c' a' there => ?_, fun each inside => ?_, fun a' => ?_,
    fun c' c'' a' here' there => ?_⟩
  · have other : c' ≠ c := by
      rintro rfl
      rw [Function.update_self] at there
      exact nomatch there
    rw [Function.update_of_ne other] at there
    obtain ⟨each, inside, holds⟩ := placed.used c' a' there
    have apart : each ≠ m := by
      rintro rfl
      exact other (Option.some.inj (holds.symm.trans own))
    have member := Finset.mem_erase.mpr ⟨apart, inside⟩
    exact ⟨each, member, by rwa [same each member]⟩
  · obtain ⟨c', data, holds, there, bytes, bounds⟩ :=
      placed.inside each (Finset.mem_of_mem_erase inside)
    have other : c' ≠ c := fun equal => last each inside (equal ▸ holds)
    have apart : (bufs each).ptr.1 ≠ a := fun equal =>
      other (placed.apart c' c a (equal ▸ there) here)
    rw [same each inside]
    refine ⟨c', data, holds, ?_, ?_, bounds⟩
    · rwa [Function.update_of_ne other]
    · rwa [Function.update_of_ne apart]
  · by_cases gone : a' = a
    · subst gone
      rw [Function.update_self]
      constructor
      · exact fun absurd => nomatch absurd
      · rintro ⟨c', there⟩
        by_cases other : c' = c
        · subst other
          rw [Function.update_self] at there
          exact nomatch there
        · rw [Function.update_of_ne other] at there
          exact absurd (placed.apart c' c a' there here) other
    · rw [Function.update_of_ne gone, placed.allocated]
      constructor
      · rintro ⟨c', there⟩
        have other : c' ≠ c := by
          rintro rfl
          exact gone (Option.some.inj (there.symm.trans here))
        exact ⟨c', by rwa [Function.update_of_ne other]⟩
      · rintro ⟨c', there⟩
        have other : c' ≠ c := by
          rintro rfl
          rw [Function.update_self] at there
          exact nomatch there
        exact ⟨c', by rwa [Function.update_of_ne other] at there⟩
  · have old : ∀ {c' : Nat}, Function.update place c none c' = some a' → place c' = some a' := by
      intro c' there
      have other : c' ≠ c := by
        rintro rfl
        rw [Function.update_self] at there
        exact nomatch there
      rwa [Function.update_of_ne other] at there
    exact placed.apart c' c'' a' (old here') (old there)

/-- Only the live buffers count. -/
theorem congr (placed : Placed blocks place bufs live)
    (same : ∀ each ∈ live, bufs' each = bufs each) : Placed blocks place bufs' live := by
  refine ⟨fun c a here => ?_, fun each inside => ?_, placed.allocated, placed.apart⟩
  · obtain ⟨each, inside, own⟩ := placed.used c a here
    exact ⟨each, inside, by rwa [same each inside]⟩
  · rw [same each inside]
    exact placed.inside each inside

/-- A block is written. -/
theorem rewrite (placed : Placed blocks place bufs live) {data data' : Bytes}
    (here : blocks a = some data) (length : data'.length = data.length) :
    Placed (Function.update blocks a (some data')) place bufs live := by
  refine ⟨placed.used, fun each inside => ?_, fun a' => ?_, placed.apart⟩
  · obtain ⟨c, old, own, control, bytes, bounds⟩ := placed.inside each inside
    by_cases same : (bufs each).ptr.1 = a
    · rw [same] at bytes
      obtain rfl := Option.some.inj (bytes.symm.trans here)
      exact ⟨c, data', own, control, by rw [same, Function.update_self], by rwa [length]⟩
    · exact ⟨c, old, own, control, by rwa [Function.update_of_ne same], bounds⟩
  · rw [← placed.allocated]
    by_cases same : a' = a
    · rw [same, Function.update_self, here]
      rfl
    · rw [Function.update_of_ne same]

end Placed

namespace Heap

variable {range : Nat} {heap : Heap} {m t c : Nat} {mcb : Mcb}

/-- The block of a control block. -/
def place (heap : Heap) (c : Nat) : Option Nat := (heap.mem.mcbs c).map Mcb.ptr

/-- The counters are right, and the live buffers lie in the allocated blocks. -/
structure Owned (heap : Heap) : Prop where
  /-- A counter is the number of the live buffers that refer to its control block. -/
  counter : ∀ c mcb, heap.mem.mcbs c = some mcb → mcb.i = (heap.references c).card
  /-- The live buffers lie in the blocks of their control blocks. -/
  placed : Placed heap.mem.blocks heap.place heap.mem.bufs heap.live

/-- The empty memory is owned. -/
theorem empty_owned : empty.Owned := by
  have none : ∀ c a, empty.place c ≠ some a := fun _ _ => nofun
  refine ⟨fun _ _ => nofun, fun c a here => absurd here (none c a),
    fun m member => absurd member (Finset.notMem_empty m), fun a => ?_,
    fun c _ a here => absurd here (none c a)⟩
  simp [empty, place]

namespace Owned

/-- What a live buffer refers to. -/
theorem control (owned : heap.Owned) (member : m ∈ heap.live) :
    ∃ c mcb data, (heap.mem.bufs m).mcb = some c ∧ heap.mem.mcbs c = some mcb ∧
      mcb.ptr = (heap.mem.bufs m).ptr.1 ∧ heap.mem.blocks (heap.mem.bufs m).ptr.1 = some data ∧
      0 < (heap.mem.bufs m).n ∧
      (heap.mem.bufs m).ptr.2 + (heap.mem.bufs m).n ≤ data.length ∧
      mcb.i = (heap.references c).card ∧ m ∈ heap.references c := by
  obtain ⟨c, data, own, here, bytes, some, bound⟩ := owned.placed.inside m member
  obtain ⟨mcb, control, same⟩ := Option.map_eq_some_iff.mp here
  exact ⟨c, mcb, data, own, control, same, bytes, some, bound, owned.counter c mcb control,
    mem_holders.mpr ⟨member, own⟩⟩

/-- The counter of a live buffer is positive. -/
theorem counter_pos (owned : heap.Owned) (member : m ∈ heap.live)
    (own : (heap.mem.bufs m).mcb = some c) (control : heap.mem.mcbs c = some mcb) : 1 ≤ mcb.i := by
  rw [owned.counter c mcb control]
  exact Finset.card_pos.mpr ⟨m, mem_holders.mpr ⟨member, own⟩⟩

/-- One more reference is counted. -/
theorem retain_eq (owned : heap.Owned) (member : m ∈ heap.live)
    (own : (heap.mem.bufs m).mcb = some c) (control : heap.mem.mcbs c = some mcb)
    (room : (heap.references c).card + 1 < range) :
    heap.mem.retain range m = some { heap.mem with
      mcbs := Function.update heap.mem.mcbs c (some { mcb with i := mcb.i + 1 }) } := by
  have positive := owned.counter_pos member own control
  have whole : (mcb.i + 1) % range = mcb.i + 1 := by
    rw [owned.counter c mcb control]
    exact Nat.mod_eq_of_lt room
  simp only [Memory.retain, own, control, positive, whole, guard, Option.bind_eq_bind,
    Option.bind_some, if_true]
  rfl

end Owned

/-- A change of the counter keeps the block. -/
theorem place_counter (control : heap.mem.mcbs c = some mcb) (i : Nat) (c' : Nat) :
    (Function.update heap.mem.mcbs c (some { mcb with i := i }) c').map Mcb.ptr =
      heap.place c' := by
  by_cases here : c' = c
  · rw [here, Function.update_self, place, control]
    rfl
  · rw [Function.update_of_ne here, place]

/-- A part of a live buffer becomes a counted buffer of its own. -/
theorem Owned.share (owned : heap.Owned) (member : m ∈ heap.live) (fresh : t ∉ heap.live)
    (own : (heap.mem.bufs m).mcb = some c) (control : heap.mem.mcbs c = some mcb)
    (bufs : Nat → Mbuffer) (parts : ∀ each ∈ heap.live, (bufs each).Part (heap.mem.bufs each))
    (part : (bufs t).Part (heap.mem.bufs m)) :
    Owned ⟨{ heap.mem with
      mcbs := Function.update heap.mem.mcbs c (some { mcb with i := mcb.i + 1 })
      bufs := bufs }, insert t heap.live⟩ := by
  have same : ∀ each ∈ heap.live, (bufs each).mcb = (heap.mem.bufs each).mcb :=
    fun each inside => (parts each inside).1
  have shared := owned.placed.share member parts part
  constructor
  · intro c' mcb' here
    change Function.update heap.mem.mcbs c (some { mcb with i := mcb.i + 1 }) c' = some mcb' at here
    by_cases equal : c' = c
    · subst equal
      rw [Function.update_self] at here
      obtain rfl := Option.some.inj here
      have count := card_holders_insert fresh same (part.1.trans own)
      exact (congrArg (· + 1) (owned.counter c' mcb control)).trans count.symm
    · rw [Function.update_of_ne equal] at here
      have count := holders_insert_of_ne same (part.1.trans own) equal
      exact (owned.counter c' mcb' here).trans (congrArg Finset.card count.symm)
  · have blocks : Heap.place ⟨{ heap.mem with
        mcbs := Function.update heap.mem.mcbs c (some { mcb with i := mcb.i + 1 })
        bufs := bufs }, insert t heap.live⟩ = heap.place :=
      funext (place_counter control _)
    rw [blocks]
    exact shared

/-- The buffer is the only one that the call is about, and the call changes it. -/
def Changes : MbufferCall → Nat → Prop
  | .split m1 _ _, each => each = m1
  | .realloc m _ _, each => each = m
  | .free m, each => each = m
  | _, _ => False

/-- What a call does to the bytes of the buffer that it is about, when it succeeds or not. -/
def Does (heap heap' : Heap) (done : Bool) : MbufferCall → Prop
  | .create m size _ _ => done = true → (heap'.mem.bytes m).length = size
  | .clone m temp => ∀ t ∈ temp, heap'.mem.bytes t = heap.mem.bytes m
  | .copy m temp _ _ => done = true → ∀ t ∈ temp, heap'.mem.bytes t = heap.mem.bytes m
  | .split m1 m2 _ => heap'.mem.bytes m1 ++ heap'.mem.bytes m2 = heap.mem.bytes m1 ∧
      (heap'.mem.bufs m1).ptr.1 = (heap'.mem.bufs m2).ptr.1 ∧
      (heap'.mem.bufs m1).ptr.2 + (heap'.mem.bufs m1).n ≤ (heap'.mem.bufs m2).ptr.2
  | .realloc m size _ =>
      if done then (heap'.mem.bytes m).length = size ∧
        (heap'.mem.bytes m).take (min (heap.mem.bufs m).n size) =
          (heap.mem.bytes m).take (min (heap.mem.bufs m).n size)
      else heap'.mem.bytes m = heap.mem.bytes m
  | .free _ => True

/-- The buffers that are live behind a call. -/
def liveAfter (heap : Heap) (done : Bool) : MbufferCall → Finset Nat
  | .create m _ _ _ => if done then insert m heap.live else heap.live
  | .clone _ temp => temp.elim heap.live (insert · heap.live)
  | .copy _ temp _ _ => if done then temp.elim heap.live (insert · heap.live) else heap.live
  | .split _ m2 _ => insert m2 heap.live
  | .realloc _ _ _ => heap.live
  | .free m => heap.live.erase m

/-- A call does not fault; it keeps the counters and the bytes of all other buffers. -/
def Succeeds (range : Nat) (heap : Heap) (call : MbufferCall) : Prop :=
  ∃ done heap', heap.perform range call = some (done, heap') ∧ heap'.Owned ∧
    heap'.live = heap.liveAfter done call ∧ heap.Does heap' done call ∧
    ∀ each ∈ heap.live, ¬Changes call each → heap'.mem.bytes each = heap.mem.bytes each

/-- The bytes of a buffer that stays, in a block that stays. -/
theorem bytes_congr {mem mem' : Memory} (buf : mem'.bufs m = mem.bufs m)
    (block : mem'.blocks (mem.bufs m).ptr.1 = mem.blocks (mem.bufs m).ptr.1) :
    mem'.bytes m = mem.bytes m := by
  rw [Memory.bytes, Memory.bytes, buf, block]

/-- The bytes of a buffer are a part of its block. -/
theorem bytes_eq {mem : Memory} {data : Bytes} (here : mem.blocks (mem.bufs m).ptr.1 = some data) :
    mem.bytes m = (data.drop (mem.bufs m).ptr.2).take (mem.bufs m).n := by
  rw [Memory.bytes, here]

namespace Owned

/-- Only the live buffers count. -/
theorem congr (owned : heap.Owned) {bufs : Nat → Mbuffer}
    (same : ∀ each ∈ heap.live, bufs each = heap.mem.bufs each) :
    Owned ⟨{ heap.mem with bufs := bufs }, heap.live⟩ := by
  refine ⟨fun c mcb here => (owned.counter c mcb here).trans ?_, owned.placed.congr same⟩
  exact congrArg Finset.card
    (holders_congr (fun each inside => congrArg Mbuffer.mcb (same each inside)) c).symm

/-- The block of a live buffer is in use. -/
theorem ptr_ne (owned : heap.Owned) (member : m ∈ heap.live) {a : Nat}
    (unused : heap.mem.blocks a = none) : (heap.mem.bufs m).ptr.1 ≠ a := by
  obtain ⟨c, data, -, -, bytes, -⟩ := owned.placed.inside m member
  rintro rfl
  rw [bytes] at unused
  exact nomatch unused

/-- A new block with its control block and its first buffer. -/
theorem created (owned : heap.Owned) (fresh : m ∉ heap.live) {a : Nat} {garbage : Bytes}
    (unused : heap.mem.blocks a = none) (unused' : heap.mem.mcbs c = none)
    (some : 0 < garbage.length) :
    Owned ⟨⟨Function.update heap.mem.blocks a (Option.some garbage),
      Function.update heap.mem.mcbs c (Option.some ⟨1, a⟩),
      Function.update heap.mem.bufs m ⟨(a, 0), garbage.length, Option.some c⟩⟩,
      insert m heap.live⟩ := by
  have others : ∀ each ∈ heap.live, each ≠ m := fun each member same => fresh (same ▸ member)
  have same : ∀ each ∈ heap.live, (Function.update heap.mem.bufs m
      ⟨(a, 0), garbage.length, Option.some c⟩ each).mcb = heap.mem.owner each := by
    intro each member
    rw [Function.update_of_ne (others each member), Memory.owner]
  have own : (Function.update heap.mem.bufs m ⟨(a, 0), garbage.length, Option.some c⟩ m).mcb =
      Option.some c := by
    rw [Function.update_self]
  have nobody : heap.references c = ∅ := by
    refine Finset.eq_empty_of_forall_notMem fun each member => ?_
    obtain ⟨inside, holds⟩ := mem_holders.mp member
    obtain ⟨c', mcb, -, own', control, -⟩ := owned.control inside
    obtain rfl := Option.some.inj (own'.symm.trans holds)
    rw [control] at unused'
    exact nomatch unused'
  constructor
  · intro c' mcb here
    change Function.update heap.mem.mcbs c (Option.some ⟨1, a⟩) c' = Option.some mcb at here
    by_cases equal : c' = c
    · subst equal
      rw [Function.update_self] at here
      obtain rfl := Option.some.inj here
      have count := card_holders_insert fresh same own
      have zero : (holders heap.live heap.mem.owner c').card = 0 := by
        rw [← Heap.references, nobody, Finset.card_empty]
      rw [zero] at count
      exact count.symm
    · rw [Function.update_of_ne equal] at here
      exact (owned.counter c' mcb here).trans
        (congrArg Finset.card (holders_insert_of_ne same own equal).symm)
  · have unplaced : heap.place c = none := by rw [place, unused', Option.map_none]
    have placed := owned.placed.create fresh unused unplaced some
    have blocks : (fun c' =>
        (Function.update heap.mem.mcbs c (Option.some ⟨1, a⟩) c').map Mcb.ptr) =
        Function.update heap.place c (Option.some a) := by
      funext c'
      by_cases equal : c' = c
      · rw [equal, Function.update_self, Function.update_self]
        rfl
      · rw [Function.update_of_ne equal, Function.update_of_ne equal, place]
    rw [← blocks] at placed
    exact placed

/-- The two allocations of `mbuffer_create`. -/
theorem create_mem {size : Nat} {data : Option (Nat × Bytes)}
    {mcb : Option Nat} (fresh : m ∉ heap.live) (some : 0 < size)
    (mallocs : heap.Mallocs size data mcb) :
    (∃ bufs, heap.mem.create m size data mcb =
        Option.some (false, { heap.mem with bufs := bufs }) ∧
        ∀ each ∈ heap.live, bufs each = heap.mem.bufs each) ∨
      ∃ a garbage c, data = Option.some (a, garbage) ∧ mcb = Option.some c ∧
        heap.mem.blocks a = none ∧ heap.mem.mcbs c = none ∧ garbage.length = size ∧
        heap.mem.create m size data mcb = Option.some (true,
          ⟨Function.update heap.mem.blocks a (Option.some garbage),
            Function.update heap.mem.mcbs c (Option.some ⟨1, a⟩),
            Function.update heap.mem.bufs m ⟨(a, 0), size, Option.some c⟩⟩) := by
  cases data with
  | none =>
    refine Or.inl ⟨heap.mem.bufs, ?_, fun _ _ => rfl⟩
    simp only [Memory.create, some, guard, if_true]
    rfl
  | some block =>
    obtain ⟨a, garbage⟩ := block
    obtain ⟨unused, length⟩ := mallocs.1 (a, garbage) rfl
    cases mcb with
    | none =>
      refine Or.inl ⟨Function.update heap.mem.bufs m { heap.mem.bufs m with mcb := none }, ?_, ?_⟩
      · have freed : Function.update
            (Function.update heap.mem.blocks a (Option.some garbage)) a none = heap.mem.blocks := by
          rw [Function.update_idem, ← unused, Function.update_eq_self]
        simp only [Memory.create, Memory.freeBlock, some, guard, if_true, Function.update_self,
          Option.bind_eq_bind, Option.bind_some, freed]
        rfl
      · intro each member
        have apart : each ≠ m := fun same => fresh (same ▸ member)
        rw [Function.update_of_ne apart]
    | some c =>
      refine Or.inr ⟨a, garbage, c, rfl, rfl, unused, mallocs.2 c rfl, length, ?_⟩
      simp only [Memory.create, some, guard, if_true]
      rfl

/-- `mbuffer_create`. -/
theorem create (owned : heap.Owned) {size : Nat} {data : Option (Nat × Bytes)} {mcb : Option Nat}
    (legal : heap.Legal (.create m size data mcb)) :
    heap.Succeeds range (.create m size data mcb) := by
  obtain ⟨fresh, some, mallocs⟩ := legal
  rcases create_mem fresh some mallocs with
    ⟨bufs, ran, same⟩ | ⟨a, garbage, c, -, -, unused, unused', rfl, ran⟩
  · refine ⟨false, ⟨{ heap.mem with bufs := bufs }, heap.live⟩, ?_, owned.congr same, rfl,
      nofun, fun each member _ => bytes_congr (same each member) rfl⟩
    simp only [perform, ran]
    rfl
  · refine ⟨true, ⟨_, insert m heap.live⟩, ?_, owned.created fresh unused unused' some, rfl,
      fun _ => ?_, fun each member _ => ?_⟩
    · simp only [perform, ran]
      rfl
    · simp [Memory.bytes]
    · have apart : each ≠ m := fun same => fresh (same ▸ member)
      exact bytes_congr (Function.update_of_ne apart _ _)
        (Function.update_of_ne (owned.ptr_ne member unused) _ _)

/-- `mbuffer_clone`, where the counter can count one more reference. -/
theorem clone (owned : heap.Owned) {temp : Option Nat} (legal : heap.Legal (.clone m temp))
    (room : ∀ c, (heap.mem.bufs m).mcb = some c → (heap.references c).card + 1 < range) :
    heap.Succeeds range (.clone m temp) := by
  obtain ⟨member, fresh⟩ := legal
  cases temp with
  | none => exact ⟨false, heap, rfl, owned, rfl, nofun, fun _ _ _ => rfl⟩
  | some t =>
    obtain ⟨c, mcb, data, own, control, -, -, some, -⟩ := owned.control member
    have retains := owned.retain_eq member own control (room c own)
    have fresh := fresh t rfl
    have others : ∀ each ∈ heap.live, each ≠ t := fun each member same => fresh (same ▸ member)
    have kept : ∀ each ∈ heap.live,
        Function.update heap.mem.bufs t (heap.mem.bufs m) each = heap.mem.bufs each :=
      fun each inside => Function.update_of_ne (others each inside) _ _
    refine ⟨true, ⟨_, insert t heap.live⟩, ?_, owned.share member fresh own control
      (Function.update heap.mem.bufs t (heap.mem.bufs m)) (fun each inside => ?_) ?_,
      rfl, fun t' same => ?_, fun each inside _ => bytes_congr (kept each inside) rfl⟩
    · simp only [perform, Memory.clone, retains]
      rfl
    · obtain ⟨-, -, -, -, -, -, -, positive, -⟩ := owned.control inside
      rw [kept each inside]
      exact ⟨rfl, rfl, positive, le_rfl⟩
    · rw [Function.update_self]
      exact ⟨rfl, rfl, some, le_rfl⟩
    · obtain rfl := Option.some.inj same
      simp [Memory.bytes]

/-- `mbuffer_split`, where the counter can count one more reference. -/
theorem split (owned : heap.Owned) {m1 m2 split : Nat} (legal : heap.Legal (.split m1 m2 split))
    (room : ∀ c, (heap.mem.bufs m1).mcb = some c → (heap.references c).card + 1 < range) :
    heap.Succeeds range (.split m1 m2 split) := by
  obtain ⟨member, fresh, positive, inside⟩ := legal
  obtain ⟨c, mcb, data, own, control, -, block, some, bound, -⟩ := owned.control member
  have retains := owned.retain_eq member own control (room c own)
  have apart : m1 ≠ m2 := fun same => fresh (same ▸ member)
  let bufs := Function.update (Function.update heap.mem.bufs m2
    ⟨((heap.mem.bufs m1).ptr.1, (heap.mem.bufs m1).ptr.2 + split), (heap.mem.bufs m1).n - split,
      (heap.mem.bufs m1).mcb⟩) m1 { heap.mem.bufs m1 with n := split }
  have first : bufs m1 = { heap.mem.bufs m1 with n := split } := Function.update_self ..
  have second : bufs m2 = ⟨((heap.mem.bufs m1).ptr.1, (heap.mem.bufs m1).ptr.2 + split),
      (heap.mem.bufs m1).n - split, (heap.mem.bufs m1).mcb⟩ := by
    simp only [bufs, Function.update_of_ne apart.symm, Function.update_self]
  have others : ∀ each ∈ heap.live, each ≠ m1 → bufs each = heap.mem.bufs each := by
    intro each live other
    have away : each ≠ m2 := fun same => fresh (same ▸ live)
    simp only [bufs, Function.update_of_ne other, Function.update_of_ne away]
  refine ⟨true, ⟨{ heap.mem with
      mcbs := Function.update heap.mem.mcbs c (Option.some { mcb with i := mcb.i + 1 })
      bufs := bufs }, insert m2 heap.live⟩, ?_,
    owned.share member fresh own control bufs (fun each live => ?_) ?_, rfl, ⟨?_, ?_, ?_⟩,
    fun each live other => bytes_congr (others each live other) rfl⟩
  · simp only [perform, Memory.split, positive, inside, and_self, guard, if_true, retains]
    rfl
  · by_cases here : each = m1
    · rw [here, first]
      exact ⟨rfl, rfl, positive, Nat.add_le_add_left inside.le _⟩
    · obtain ⟨-, -, -, -, -, -, -, positive, -⟩ := owned.control live
      rw [others each live here]
      exact ⟨rfl, rfl, positive, le_rfl⟩
  · rw [second]
    refine ⟨rfl, rfl, Nat.sub_pos_of_lt inside, ?_⟩
    dsimp only
    omega
  · have front : heap.mem.blocks (bufs m1).ptr.1 = Option.some data := by rw [first]; exact block
    have back : heap.mem.blocks (bufs m2).ptr.1 = Option.some data := by rw [second]; exact block
    rw [bytes_eq front, bytes_eq back, bytes_eq block]
    show ((data.drop (bufs m1).ptr.2).take (bufs m1).n) ++
      ((data.drop (bufs m2).ptr.2).take (bufs m2).n) = _
    rw [first, second]
    dsimp only
    rw [← List.drop_drop, ← List.take_add]
    congr 1
    omega
  · show (bufs m1).ptr.1 = (bufs m2).ptr.1
    rw [first, second]
  · show (bufs m1).ptr.2 + (bufs m1).n ≤ (bufs m2).ptr.2
    rw [first, second]

/-- `mbuffer_copy`. -/
theorem copy (owned : heap.Owned) {temp : Option Nat} {data : Option (Nat × Bytes)}
    {mcb : Option Nat} (legal : heap.Legal (.copy m temp data mcb)) :
    heap.Succeeds range (.copy m temp data mcb) := by
  obtain ⟨member, fresh, mallocs⟩ := legal
  obtain ⟨-, -, source, -, -, -, block, some, bound, -⟩ := owned.control member
  have positive : 1 ≤ (heap.mem.bufs m).n := some
  cases temp with
  | none =>
    refine ⟨false, heap, ?_, owned, rfl, nofun, fun _ _ _ => rfl⟩
    simp only [perform, Memory.copy, positive, guard, if_true]
    rfl
  | some t =>
    have fresh := fresh t rfl
    have apart : m ≠ t := fun same => fresh (same ▸ member)
    rcases create_mem fresh some mallocs with
      ⟨bufs, ran, same⟩ | ⟨a, garbage, c, -, -, unused, unused', length, ran⟩
    · refine ⟨false, ⟨{ heap.mem with bufs := bufs }, heap.live⟩, ?_, owned.congr same, rfl,
        nofun, fun each member _ => bytes_congr (same each member) rfl⟩
      simp only [perform, Memory.copy, positive, guard, if_true, ran]
      rfl
    · let bytes := (source.drop (heap.mem.bufs m).ptr.2).take (heap.mem.bufs m).n
      have size : bytes.length = garbage.length := by
        rw [length]
        simp only [bytes, List.length_take, List.length_drop]
        omega
      have made := owned.created (c := c) fresh unused unused' (length ▸ some)
      rw [length] at made
      let mem : Memory := ⟨Function.update heap.mem.blocks a (Option.some garbage),
        Function.update heap.mem.mcbs c (Option.some ⟨1, a⟩),
        Function.update heap.mem.bufs t ⟨(a, 0), (heap.mem.bufs m).n, Option.some c⟩⟩
      have old : mem.bufs m = heap.mem.bufs m := Function.update_of_ne apart _ _
      have new : mem.bufs t = ⟨(a, 0), (heap.mem.bufs m).n, Option.some c⟩ :=
        Function.update_self ..
      have read : mem.read (mem.bufs m).ptr (mem.bufs m).n = Option.some bytes := by
        have there : mem.blocks (heap.mem.bufs m).ptr.1 = Option.some source :=
          (Function.update_of_ne (owned.ptr_ne member unused) _ _).trans block
        rw [old]
        simp only [Memory.read, there, bound, guard, Option.bind_eq_bind, Option.bind_some, if_true]
        rfl
      have here : mem.blocks a = Option.some garbage := Function.update_self ..
      have write : mem.write (mem.bufs t).ptr bytes =
          Option.some { mem with blocks := Function.update mem.blocks a (Option.some bytes) } := by
        have fits : 0 + bytes.length ≤ garbage.length := by omega
        have rest : garbage.drop (0 + bytes.length) = [] := List.drop_eq_nil_of_le (by omega)
        rw [new]
        simp only [Memory.write, here, fits, rest, guard, Option.bind_eq_bind, Option.bind_some,
          if_true, List.take_zero, List.nil_append, List.append_nil]
        rfl
      refine ⟨true, ⟨{ mem with blocks := Function.update mem.blocks a (Option.some bytes) },
        insert t heap.live⟩, ?_, ⟨made.counter, made.placed.rewrite here size⟩, rfl,
        fun _ t' same => ?_, fun each inside _ => ?_⟩
      · have ran' : heap.mem.create t (heap.mem.bufs m).n data mcb = Option.some (true, mem) := ran
        simp only [perform, Memory.copy, positive, guard, if_true, ran', Option.bind_eq_bind,
          Option.bind_some, read, write]
        rfl
      · obtain rfl := Option.some.inj same
        have there : Function.update mem.blocks a (Option.some bytes) (mem.bufs t).ptr.1 =
            Option.some bytes := by
          rw [new, Function.update_self]
        rw [bytes_eq block, bytes_eq there]
        show (bytes.drop (mem.bufs t).ptr.2).take (mem.bufs t).n = bytes
        rw [new, List.drop_zero]
        exact List.take_of_length_le (size.trans length).le
      · have away : each ≠ t := fun same => fresh (same ▸ inside)
        refine bytes_congr (Function.update_of_ne away _ _) ?_
        have other := owned.ptr_ne inside unused
        exact (Function.update_of_ne other _ _).trans (Function.update_of_ne other _ _)

/-- The only reference to a control block: no other buffer lies in its block. -/
theorem alone (owned : heap.Owned) (member : m ∈ heap.live) (own : (heap.mem.bufs m).mcb = some c)
    (control : heap.mem.mcbs c = some mcb) (one : (heap.references c).card ≤ 1) {each : Nat}
    (inside : each ∈ heap.live) (apart : each ≠ m) :
    (heap.mem.bufs each).mcb ≠ some c ∧ (heap.mem.bufs each).ptr.1 ≠ mcb.ptr := by
  have other : (heap.mem.bufs each).mcb ≠ some c := fun holds =>
    apart (Finset.card_le_one.mp one each (mem_holders.mpr ⟨inside, holds⟩) m
      (mem_holders.mpr ⟨member, own⟩))
  refine ⟨other, fun same => ?_⟩
  obtain ⟨c', -, own', here, -⟩ := owned.placed.inside each inside
  have there : heap.place c = some mcb.ptr := by rw [place, control, Option.map_some]
  rw [same] at here
  exact other (owned.placed.apart c' c mcb.ptr here there ▸ own')

/-- The last reference takes the block with it. -/
theorem freedLast (owned : heap.Owned) (member : m ∈ heap.live)
    (own : (heap.mem.bufs m).mcb = some c) (control : heap.mem.mcbs c = some mcb)
    (one : (heap.references c).card ≤ 1) :
    Owned ⟨⟨Function.update heap.mem.blocks mcb.ptr none, Function.update heap.mem.mcbs c none,
      Function.update heap.mem.bufs m { heap.mem.bufs m with mcb := none }⟩,
      heap.live.erase m⟩ := by
  have kept : ∀ each ∈ heap.live.erase m, Function.update heap.mem.bufs m
      { heap.mem.bufs m with mcb := none } each = heap.mem.bufs each := fun each inside =>
    Function.update_of_ne (Finset.ne_of_mem_erase inside) _ _
  constructor
  · intro c' mcb' here
    change Function.update heap.mem.mcbs c none c' = some mcb' at here
    have other : c' ≠ c := by
      rintro rfl
      rw [Function.update_self] at here
      exact nomatch here
    rw [Function.update_of_ne other] at here
    have count := holders_erase_of_ne member
      (fun each inside => congrArg Mbuffer.mcb (kept each inside)) own other
    exact (owned.counter c' mcb' here).trans (congrArg Finset.card count.symm)
  · have there : heap.place c = some mcb.ptr := by rw [place, control, Option.map_some]
    have placed := owned.placed.releaseLast there (fun each inside =>
      (owned.alone member own control one (Finset.mem_of_mem_erase inside)
        (Finset.ne_of_mem_erase inside)).1) kept own
    have blocks : (fun c' => (Function.update heap.mem.mcbs c none c').map Mcb.ptr) =
        Function.update heap.place c none := by
      funext c'
      by_cases equal : c' = c
      · rw [equal, Function.update_self, Function.update_self, Option.map_none]
      · rw [Function.update_of_ne equal, Function.update_of_ne equal, place]
    rw [← blocks] at placed
    exact placed

/-- A reference goes away, and another one stays. -/
theorem freedOther (owned : heap.Owned) (member : m ∈ heap.live)
    (own : (heap.mem.bufs m).mcb = some c) (control : heap.mem.mcbs c = some mcb)
    (more : 1 < (heap.references c).card) :
    Owned ⟨{ heap.mem with
      mcbs := Function.update heap.mem.mcbs c (some { mcb with i := mcb.i - 1 }) },
      heap.live.erase m⟩ := by
  have holds : heap.mem.owner m = some c := own
  constructor
  · intro c' mcb' here
    change Function.update heap.mem.mcbs c (some { mcb with i := mcb.i - 1 }) c' = some mcb' at here
    by_cases equal : c' = c
    · subst equal
      rw [Function.update_self] at here
      obtain rfl := Option.some.inj here
      have count := card_holders_erase member (fun _ _ => rfl) holds
      have counter := owned.counter c' mcb control
      show mcb.i - 1 = (holders (heap.live.erase m) heap.mem.owner c').card
      rw [counter, Heap.references, ← count, Nat.add_sub_cancel]
    · rw [Function.update_of_ne equal] at here
      have count := holders_erase_of_ne member (fun _ _ => rfl) holds equal
      exact (owned.counter c' mcb' here).trans (congrArg Finset.card count.symm)
  · obtain ⟨other, held, apart⟩ := Finset.exists_mem_ne more m
    obtain ⟨inside, same⟩ := mem_holders.mp held
    have placed := owned.placed.release inside apart (same.trans own.symm)
    have blocks : Heap.place ⟨{ heap.mem with
        mcbs := Function.update heap.mem.mcbs c (some { mcb with i := mcb.i - 1 }) },
        heap.live.erase m⟩ = heap.place := funext (place_counter control _)
    rw [blocks]
    exact placed

/-- `mbuffer_free`, where `ref` can hold the number of references that are left. -/
theorem free (owned : heap.Owned) (legal : heap.Legal (.free m))
    (room : ∀ c, (heap.mem.bufs m).mcb = some c → (heap.references c).card ≤ 2 ^ 32) :
    heap.Succeeds range (.free m) := by
  have member : m ∈ heap.live := legal
  obtain ⟨c, mcb, data, own, control, ptr, block, -, -, count, held⟩ := owned.control member
  have bound := room c own
  have positive : 0 < (heap.references c).card := Finset.card_pos.mpr ⟨m, held⟩
  have counted : mcb.i ≠ 0 := by omega
  have whole : (mcb.i - 1) % 2 ^ 32 = mcb.i - 1 := Nat.mod_eq_of_lt (by omega)
  by_cases last : (heap.references c).card ≤ 1
  · refine ⟨true, _, ?_, owned.freedLast member own control last, rfl, trivial,
      fun each inside other => ?_⟩
    · have zero : mcb.i - 1 = 0 := by omega
      rw [← ptr] at block
      simp only [perform, Memory.free, Memory.freeBlock, own, control, counted, zero, block,
        Nat.zero_mod, Option.bind_eq_bind, Option.bind_some, Option.pure_def, if_false, if_true,
        Function.update_idem]
    · have away : each ≠ m := other
      exact bytes_congr (Function.update_of_ne away _ _) (Function.update_of_ne
        (owned.alone member own control last inside away).2 _ _)
  · refine ⟨true, _, ?_, owned.freedOther member own control (Nat.lt_of_not_le last), rfl, trivial,
      fun each inside _ => bytes_congr rfl rfl⟩
    have some : mcb.i - 1 ≠ 0 := by omega
    simp only [perform, Memory.free, own, control, counted, whole, some, Option.bind_eq_bind,
      Option.bind_some, if_false]
    rfl

/-- The block of the only reference is moved. -/
theorem moved (owned : heap.Owned) (member : m ∈ heap.live)
    (own : (heap.mem.bufs m).mcb = some c) (control : heap.mem.mcbs c = some mcb)
    (one : (heap.references c).card ≤ 1) {r : Nat} {data : Bytes} (some : 0 < data.length)
    (unused : r = mcb.ptr ∨ heap.mem.blocks r = none) :
    Owned ⟨⟨Function.update (Function.update heap.mem.blocks mcb.ptr none) r (Option.some data),
      Function.update heap.mem.mcbs c (Option.some { mcb with ptr := r }),
      Function.update heap.mem.bufs m { heap.mem.bufs m with ptr := (r, 0), n := data.length }⟩,
      heap.live⟩ := by
  have same : ∀ each ∈ heap.live, (Function.update heap.mem.bufs m
      { heap.mem.bufs m with ptr := (r, 0), n := data.length } each).mcb = heap.mem.owner each := by
    intro each _
    by_cases here : each = m
    · rw [here, Function.update_self, Memory.owner]
    · rw [Function.update_of_ne here, Memory.owner]
  constructor
  · intro c' mcb' here
    change Function.update heap.mem.mcbs c (Option.some { mcb with ptr := r }) c' =
      Option.some mcb' at here
    have count := congrArg Finset.card (holders_congr same c').symm
    by_cases equal : c' = c
    · subst equal
      rw [Function.update_self] at here
      obtain rfl := Option.some.inj here
      exact (owned.counter c' mcb control).trans count
    · rw [Function.update_of_ne equal] at here
      exact (owned.counter c' mcb' here).trans count
  · have there : heap.place c = Option.some mcb.ptr := by rw [place, control, Option.map_some]
    have gone : Placed (Function.update heap.mem.blocks mcb.ptr none)
        (Function.update heap.place c none) heap.mem.bufs (heap.live.erase m) :=
      owned.placed.releaseLast there (fun each inside =>
        (owned.alone member own control one (Finset.mem_of_mem_erase inside)
          (Finset.ne_of_mem_erase inside)).1) (fun _ _ => rfl) own
    have free : Function.update heap.mem.blocks mcb.ptr none r = none := by
      by_cases back : r = mcb.ptr
      · rw [back, Function.update_self]
      · rw [Function.update_of_ne back]
        exact unused.resolve_left back
    have unplaced : Function.update heap.place c none c = none := Function.update_self ..
    have made := gone.create (Finset.notMem_erase m heap.live) free unplaced some
    rw [Function.update_idem, Finset.insert_erase member] at made
    have blocks : (fun c' => (Function.update heap.mem.mcbs c
        (Option.some { mcb with ptr := r }) c').map Mcb.ptr) =
        Function.update heap.place c (Option.some r) := by
      funext c'
      by_cases equal : c' = c
      · rw [equal, Function.update_self, Function.update_self, Option.map_some]
      · rw [Function.update_of_ne equal, Function.update_of_ne equal, place]
    rw [← blocks, ← own] at made
    exact made

/-- `mbuffer_realloc`. -/
theorem realloc (owned : heap.Owned) {size : Nat} {data : Option (Nat × Bytes)}
    (legal : heap.Legal (.realloc m size data)) : heap.Succeeds range (.realloc m size data) := by
  obtain ⟨member, positive, moves⟩ := legal
  obtain ⟨c, mcb, old, own, control, ptr, block, some, bound, count, -⟩ := owned.control member
  have failed : heap.mem.realloc m size data = Option.some (false, heap.mem) →
      heap.Succeeds range (.realloc m size data) := by
    intro ran
    refine ⟨false, heap, ?_, owned, rfl, rfl, fun _ _ _ => rfl⟩
    simp only [perform, ran]
    rfl
  by_cases shared : 1 < mcb.i
  · apply failed
    simp only [Memory.realloc, positive, own, control, shared, guard, Option.bind_eq_bind,
      Option.bind_some, if_true]
    rfl
  by_cases start : (heap.mem.bufs m).ptr = (mcb.ptr, 0)
  · cases data with
    | none =>
      apply failed
      rw [← ptr] at block
      simp only [Memory.realloc, positive, own, control, shared, start, block, guard,
        Option.bind_eq_bind, Option.bind_some, if_true, if_false, ne_eq, not_true_eq_false]
      rfl
    | some place =>
      obtain ⟨r, garbage⟩ := place
      obtain ⟨unused, whole⟩ := moves (r, garbage) rfl
      have length := whole old block
      have alone : (heap.references c).card ≤ 1 := by omega
      rw [← ptr] at unused block
      have moved := owned.moved member own control alone (length ▸ positive) unused
      rw [length] at moved
      refine ⟨true, _, ?_, moved, rfl, ?_, fun each inside other => ?_⟩
      · simp only [perform, Memory.realloc, positive, own, control, shared, start, block, guard,
          Option.bind_eq_bind, Option.bind_some, if_true, if_false, ne_eq, not_true_eq_false]
        rfl
      · have new : ∀ mem : Memory, mem.bufs m = { heap.mem.bufs m with ptr := (r, 0), n := size } →
            mem.blocks r = Option.some (old.take size ++ garbage) →
            mem.bytes m = old.take size ++ garbage := by
          intro mem buf here
          have there : mem.blocks (mem.bufs m).ptr.1 = Option.some (old.take size ++ garbage) := by
            rw [buf]
            exact here
          rw [bytes_eq there, buf, List.drop_zero]
          exact List.take_of_length_le length.le
        have short : min (heap.mem.bufs m).n size ≤ (old.take size).length := by
          rw [List.length_take]
          omega
        rw [Does, if_pos rfl, new _ (Function.update_self ..) (Function.update_self ..)]
        have there : heap.mem.blocks (heap.mem.bufs m).ptr.1 = Option.some old := by
          rw [start]
          exact block
        refine ⟨length, ?_⟩
        rw [bytes_eq there, start, List.drop_zero, List.take_append_of_le_length short,
          List.take_take, List.take_take, min_eq_left (min_le_right _ _),
          min_eq_left (min_le_left _ _)]
      · have away : each ≠ m := other
        have apart := (owned.alone member own control alone inside away).2
        have apart' : (heap.mem.bufs each).ptr.1 ≠ r := by
          rcases unused with rfl | unused
          · exact apart
          · exact owned.ptr_ne inside unused
        refine bytes_congr (Function.update_of_ne away _ _) ?_
        exact (Function.update_of_ne apart' _ _).trans (Function.update_of_ne apart _ _)
  · apply failed
    simp only [Memory.realloc, positive, own, control, shared, start, guard, Option.bind_eq_bind,
      Option.bind_some, if_true, if_false, ne_eq, not_false_eq_true]
    rfl

/-- The bytes of a live buffer. -/
theorem length_bytes (owned : heap.Owned) (member : m ∈ heap.live) :
    (heap.mem.bytes m).length = (heap.mem.bufs m).n := by
  obtain ⟨-, -, data, -, -, -, block, -, bound, -⟩ := owned.control member
  rw [bytes_eq block, List.length_take, List.length_drop]
  omega

end Owned

/-- The counter of the control block can count the reference that a clone or a split adds, and
`ref` can hold the number of references that a call of `mbuffer_free` leaves. -/
def Countable (range : Nat) (heap : Heap) : MbufferCall → Prop
  | .clone m _ => ∀ c, (heap.mem.bufs m).mcb = some c → (heap.references c).card + 1 < range
  | .split m1 _ _ => ∀ c, (heap.mem.bufs m1).mcb = some c → (heap.references c).card + 1 < range
  | .free m => ∀ c, (heap.mem.bufs m).mcb = some c → (heap.references c).card ≤ 2 ^ 32
  | _ => True

/-- A legal call that can be counted does not fault. -/
theorem Owned.perform (owned : heap.Owned) {call : MbufferCall} (legal : heap.Legal call)
    (countable : Countable range heap call) : heap.Succeeds range call := by
  cases call with
  | create m size data mcb => exact owned.create legal
  | clone m temp => exact owned.clone legal countable
  | copy m temp data mcb => exact owned.copy legal
  | split m1 m2 split => exact owned.split legal countable
  | realloc m size data => exact owned.realloc legal
  | free m => exact owned.free legal countable

/-- A call that is legal and satisfies a condition, and that returns. -/
def Step (range : Nat) (condition : Heap → MbufferCall → Prop) (heap heap' : Heap) : Prop :=
  ∃ call done, heap.Legal call ∧ condition heap call ∧
    heap.perform range call = some (done, heap')

/-- The counters of the control blocks are the numbers of the live buffers that refer to them, a
block is allocated as long as a live buffer lies in it, and each live buffer has its bytes. -/
structure Correct (heap : Heap) : Prop where
  /-- The counters. -/
  counter : ∀ c mcb, heap.mem.mcbs c = some mcb → mcb.i = (heap.references c).card
  /-- The blocks. -/
  memory : ∀ a, (heap.mem.blocks a).isSome = true ↔ ∃ m ∈ heap.live, (heap.mem.bufs m).ptr.1 = a
  /-- The buffers. -/
  buffer : ∀ m ∈ heap.live, (heap.mem.bytes m).length = (heap.mem.bufs m).n ∧
    ∃ c mcb, (heap.mem.bufs m).mcb = some c ∧ heap.mem.mcbs c = some mcb ∧
      mcb.ptr = (heap.mem.bufs m).ptr.1

/-- In each state that calls with a condition reach the counters and the memory are right, and the
next such call does not fault, does what it is for and keeps the bytes of all other buffers. -/
def AlwaysCorrect (range : Nat) (condition : Heap → MbufferCall → Prop) : Prop :=
  ∀ heap, Reachable (· = empty) (Step range condition) heap →
    heap.Correct ∧ ∀ call, heap.Legal call → condition heap call →
      ∃ done heap', heap.perform range call = some (done, heap') ∧
        heap'.live = heap.liveAfter done call ∧ heap.Does heap' done call ∧
        ∀ each ∈ heap.live, ¬Changes call each → heap'.mem.bytes each = heap.mem.bytes each

/-- The reference counting is right in all runs whose calls can be counted. -/
theorem mbuffers_correct (range : Nat) : AlwaysCorrect range (Countable range) := by
  intro heap reached
  have owned : heap.Owned := by
    refine reached.invariant (fun heap start => start ▸ empty_owned) ?_
    rintro heap next owned ⟨call, done, legal, countable, ran⟩
    obtain ⟨done', next', ran', owned', -⟩ := owned.perform legal countable
    obtain ⟨-, rfl⟩ := Prod.mk.inj (Option.some.inj (ran.symm.trans ran'))
    exact owned'
  refine ⟨⟨owned.counter, owned.placed.isSome_iff, fun m member => ?_⟩,
    fun call legal countable => ?_⟩
  · obtain ⟨c, mcb, -, own, control, ptr, -⟩ := owned.control member
    exact ⟨owned.length_bytes member, c, mcb, own, control, ptr⟩
  · obtain ⟨done, heap', ran, -, rest⟩ := owned.perform legal countable
    exact ⟨done, heap', ran, rest⟩

/-- One buffer and some clones of it, for a counter of 32 bits. -/
def cloned (k : Nat) : Heap where
  mem :=
    { blocks := Function.update (fun _ => none) 0 (some [0])
      mcbs := Function.update (fun _ => none) 0 (some ⟨(k + 1) % 2 ^ 32, 0⟩)
      bufs := fun m => if m ≤ k then ⟨(0, 0), 1, some 0⟩ else ⟨(0, 0), 0, none⟩ }
  live := Finset.range (k + 1)

/-- Each clone is one more reference. -/
theorem references_cloned (k : Nat) : (cloned k).references 0 = Finset.range (k + 1) := by
  refine Finset.filter_true_of_mem fun m member => ?_
  have bound : m ≤ k := Nat.le_of_lt_succ (Finset.mem_range.mp member)
  simp [Memory.owner, cloned, bound]

/-- Each number of clones below the range of the counter is reached. -/
theorem cloned_reached (k : Nat) (bound : k < 2 ^ 32) :
    Reachable (· = empty) (Step (2 ^ 32) fun _ _ => True) (cloned k) := by
  induction k with
  | zero =>
    refine .step (.start rfl) ⟨.create 0 1 (some (0, [0])) (some 0), true, ?_, trivial, ?_⟩
    · exact ⟨Finset.notMem_empty 0, Nat.one_pos, by simp [Mallocs, empty]⟩
    · have bufs : Function.update empty.mem.bufs 0 ⟨(0, 0), 1, some 0⟩ = (cloned 0).mem.bufs := by
        funext m
        by_cases first : m = 0 <;> simp [cloned, empty, first]
      have made : empty.perform (2 ^ 32) (.create 0 1 (some (0, [0])) (some 0)) =
          some (true, ⟨⟨Function.update (fun _ => none) 0 (some [0]),
            Function.update (fun _ => none) 0 (some ⟨1, 0⟩),
            Function.update empty.mem.bufs 0 ⟨(0, 0), 1, some 0⟩⟩, {0}⟩) := rfl
      rw [made, bufs]
      rfl
  | succ k ih =>
    refine .step (ih (by omega)) ⟨.clone 0 (some (k + 1)), true, ?_, trivial, ?_⟩
    · refine ⟨Finset.mem_range.mpr k.succ_pos, fun t same => ?_⟩
      obtain rfl := Option.some.inj same
      simp [cloned]
    · have here : (cloned k).mem.mcbs 0 = some ⟨k + 1, 0⟩ := by
        simp only [cloned, Function.update_self, Nat.mod_eq_of_lt (show k + 1 < 2 ^ 32 by omega)]
      have own : ((cloned k).mem.bufs 0).mcb = some 0 := by simp [cloned]
      have positive : 1 ≤ k + 1 := Nat.succ_pos k
      have bufs : Function.update (cloned k).mem.bufs (k + 1) ((cloned k).mem.bufs 0) =
          (cloned (k + 1)).mem.bufs := by
        funext m
        by_cases last : m = k + 1
        · simp [cloned, last]
        · have same : m ≤ k ↔ m ≤ k + 1 := by omega
          simp [cloned, last, same]
      have live : insert (k + 1) (cloned k).live = (cloned (k + 1)).live :=
        (Finset.range_add_one (n := k + 1)).symm
      have mcbs : Function.update (cloned k).mem.mcbs 0 (some ⟨(k + 1 + 1) % 2 ^ 32, 0⟩) =
          (cloned (k + 1)).mem.mcbs := Function.update_idem ..
      simp only [perform, Memory.clone, Memory.retain, own, here, positive, guard, bufs, mcbs, live,
        Option.bind_eq_bind, Option.bind_some, Option.pure_def, Option.elim_some, if_true]
      rfl

/-- With 2^32 references the counter is zero. -/
theorem mbuffers_miscounted : ¬AlwaysCorrect (2 ^ 32) fun _ _ => True := by
  intro correct
  have here : (cloned (2 ^ 32 - 1)).mem.mcbs 0 = some ⟨0, 0⟩ := by
    simp only [cloned, Function.update_self]
    rfl
  have counter := (correct _ (cloned_reached (2 ^ 32 - 1) (by decide))).1.counter 0 _ here
  rw [references_cloned, Finset.card_range] at counter
  exact absurd counter (by decide)

end Heap

end P3arsec.Dedup
