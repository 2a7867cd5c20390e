import Mathlib

/-!
# Pools of blocks

Blocks are taken from the system, wait in pools and are put to uses. The system gives out blocks
that overlap no block in existence. A ledger names the holder of each block, a pool or a use, so
that no block has two of them. Taking a block out of a pool and giving one back each change the
holder of one block, and blocks that are new come to a pool.
-/

namespace P3arsec.Lib

variable {ι A U V : Type*} [DecidableEq ι] [DecidableEq A]

/-- Who has a block. -/
inductive Holder (ι U : Type*) where
  /-- A pool. -/
  | pool (i : ι)
  /-- A use. -/
  | use (u : U)
  deriving DecidableEq

/-- The holder under other names of the uses. -/
def Holder.map (f : U → V) : Holder ι U → Holder ι V
  | .pool i => .pool i
  | .use u => .use (f u)

/-- Pools, and the blocks that have been taken from the system. -/
structure Pools (ι A : Type*) where
  /-- The blocks in each pool. -/
  free : ι → List A
  /-- All blocks. -/
  blocks : List A

namespace Pools

/-- A pool gives out one of its blocks. It may have taken new blocks from the system before. -/
def grant (apart : A → A → Prop) [DecidableRel apart] (i : ι) (block : A) (fresh : List A)
    (pools : Pools ι A) : Option (Pools ι A) :=
  if (fresh ++ pools.blocks).Pairwise apart ∧ block ∈ fresh ++ pools.free i then
    some
      { free := Function.update pools.free i ((fresh ++ pools.free i).erase block)
        blocks := fresh ++ pools.blocks }
  else none

/-- A block comes back to a pool. -/
def giveBack (i : ι) (block : A) (pools : Pools ι A) : Pools ι A :=
  { pools with free := Function.update pools.free i (block :: pools.free i) }

/-- Every block has at most one holder. -/
structure Held (apart : A → A → Prop) (pools : Pools ι A) (holder : A → Option (Holder ι U)) :
    Prop where
  /-- Blocks with a holder have been taken from the system. -/
  known : ∀ {block held}, holder block = some held → block ∈ pools.blocks
  /-- Blocks do not overlap. -/
  separate : pools.blocks.Pairwise apart
  /-- A pool has the blocks that it holds. -/
  mem_free : ∀ {i block}, block ∈ pools.free i ↔ holder block = some (.pool i)
  /-- A pool has a block once. -/
  nodup : ∀ i, (pools.free i).Nodup

namespace Held

variable {apart : A → A → Prop} {pools next : Pools ι A} {holder : A → Option (Holder ι U)}

omit [DecidableEq ι] [DecidableEq A] in
/-- Two blocks with holders do not overlap. -/
theorem apart_of_ne [Std.Symm apart] (held : Held apart pools holder)
    {block other : A} {one two : Holder ι U} (first : holder block = some one)
    (second : holder other = some two) (distinct : block ≠ other) : apart block other :=
  held.separate.forall (held.known first) (held.known second) distinct

omit [DecidableEq ι] [DecidableEq A] in
/-- Other names of the uses. -/
theorem map (held : Held apart pools holder) (f : U → V) :
    Held apart pools fun block => (holder block).map (Holder.map f) where
  known same := by
    obtain ⟨_, known, -⟩ := Option.map_eq_some_iff.mp same
    exact held.known known
  separate := held.separate
  mem_free := by
    intro i block
    rw [held.mem_free, Option.map_eq_some_iff]
    constructor
    · intro known
      exact ⟨_, known, rfl⟩
    · rintro ⟨one, known, same⟩
      cases one with
      | pool i' =>
        obtain rfl : i' = i := by simpa [Holder.map] using same
        exact known
      | use u => simp [Holder.map] at same
  nodup := held.nodup

/-- A block that a pool gives out gets a use, and nothing changes for the blocks in use. -/
theorem grant [DecidableRel apart] (held : Held apart pools holder) (irreflexive : ∀ a, ¬apart a a)
    {i : ι} {block : A} {fresh : List A} (granted : pools.grant apart i block fresh = some next)
    (use : U) :
    ∃ holder', Held apart next holder' ∧ holder' block = some (.use use) ∧
      ∀ other u, holder other = some (.use u) →
        other ≠ block ∧ holder' other = some (.use u) := by
  unfold Pools.grant at granted
  split at granted
  case isFalse => cases granted
  rename_i allowed
  obtain ⟨separate, member⟩ := allowed
  cases granted
  have unknown : ∀ other ∈ fresh, holder other = none := by
    intro other new
    cases known : holder other with
    | none => rfl
    | some one =>
      exact absurd ((List.pairwise_append.mp separate).2.2 other new other (held.known known))
        (irreflexive other)
  have freshNodup : fresh.Nodup := by
    refine (List.pairwise_append.mp separate).1.imp fun apart same => ?_
    subst same
    exact irreflexive _ apart
  have nodup : (fresh ++ pools.free i).Nodup := by
    refine freshNodup.append (held.nodup i) fun other new free => ?_
    have known := held.mem_free.mp free
    rw [unknown other new] at known
    cases known
  have pooled : holder block = none ∨ holder block = some (.pool i) := by
    rcases List.mem_append.mp member with new | free
    · exact .inl (unknown block new)
    · exact .inr (held.mem_free.mp free)
  refine ⟨Function.update (fun other => if other ∈ fresh then some (.pool i) else holder other)
    block (some (.use use)), ⟨?_, separate, ?_, ?_⟩, Function.update_self .., ?_⟩
  · intro other one known
    rw [Function.update_apply] at known
    split at known
    · rename_i same
      rcases List.mem_append.mp member with new | free
      · exact List.mem_append_left _ (same ▸ new)
      · exact List.mem_append_right _ (held.known (held.mem_free.mp (same ▸ free)))
    split at known
    · exact List.mem_append_left _ ‹_›
    · exact List.mem_append_right _ (held.known known)
  · intro i' other
    dsimp only
    by_cases same : other = block
    · subst same
      rw [Function.update_self]
      constructor
      · intro free
        exfalso
        by_cases mine : i' = i
        · subst mine
          rw [Function.update_self] at free
          exact nodup.not_mem_erase free
        · rw [Function.update_of_ne mine, held.mem_free] at free
          rcases pooled with none | some
          · rw [none] at free
            cases free
          · rw [some] at free
            cases free
            exact mine rfl
      · intro used
        cases used
    · rw [Function.update_of_ne same]
      by_cases mine : i' = i
      · subst mine
        rw [Function.update_self, List.mem_erase_of_ne same, List.mem_append, held.mem_free]
        split
        · simp [*]
        · simp [*]
      · rw [Function.update_of_ne mine, held.mem_free]
        split
        · rename_i new
          rw [unknown other new]
          simp only [reduceCtorEq, Option.some.injEq, Holder.pool.injEq, false_iff]
          exact fun swapped => mine swapped.symm
        · rfl
  · intro i'
    dsimp only
    by_cases mine : i' = i
    · subst mine
      rw [Function.update_self]
      exact nodup.erase _
    · rw [Function.update_of_ne mine]
      exact held.nodup i'
  · intro other u used
    have distinct : other ≠ block := by
      rintro rfl
      rw [used] at pooled
      simp at pooled
    refine ⟨distinct, ?_⟩
    rw [Function.update_of_ne distinct, if_neg, used]
    intro new
    rw [unknown other new] at used
    cases used

/-- A block in use that comes back to a pool. -/
theorem giveBack (held : Held apart pools holder) {i : ι} {block : A} {u : U}
    (used : holder block = some (.use u)) :
    Held apart (pools.giveBack i block) (Function.update holder block (some (.pool i))) where
  known := by
    intro other one known
    by_cases same : other = block
    · rw [same]
      exact held.known used
    · rw [Function.update_of_ne same] at known
      exact held.known known
  separate := held.separate
  mem_free := by
    intro i' other
    dsimp only [Pools.giveBack]
    by_cases same : other = block
    · subst same
      rw [Function.update_self]
      by_cases mine : i' = i
      · subst mine
        rw [Function.update_self]
        simp
      · rw [Function.update_of_ne mine, held.mem_free, used]
        simp only [Option.some.injEq, reduceCtorEq, Holder.pool.injEq, false_iff]
        exact fun swapped => mine swapped.symm
    · rw [Function.update_of_ne same]
      by_cases mine : i' = i
      · subst mine
        rw [Function.update_self, List.mem_cons, held.mem_free, or_iff_right same]
      · rw [Function.update_of_ne mine, held.mem_free]
  nodup := by
    intro i'
    dsimp only [Pools.giveBack]
    by_cases mine : i' = i
    · subst mine
      rw [Function.update_self, List.nodup_cons]
      refine ⟨fun free => ?_, held.nodup _⟩
      rw [held.mem_free, used] at free
      cases free
    · rw [Function.update_of_ne mine]
      exact held.nodup i'

end Held

end Pools

end P3arsec.Lib
