import P3arsec.Freqmine.Sort
import P3arsec.Freqmine.Tiling
import P3arsec.Lib.Trie

/-!
# Work for the first tree

The transactions of the tiled database stand mask after mask in one array. At the end of
`database_tiling` the masks are sorted by the lengths of their regions, and masks that follow one
another are merged until they make up a part of the work. The parts follow one another, so that
every mask that has transactions is in one part. A node is made for every mask that occurs, and for
those on the way to it.
-/

namespace P3arsec.Freqmine

open P3arsec.Lib

/-- `hot_node_num`. -/
def hotNodeNum : Nat := 2 ^ hotItemNum

/-- What stands in a region: the number of items before the items of each transaction. -/
def wordsOf (transactions : List (List Nat)) : List Nat :=
  transactions.flatMap fun transaction => transaction.length :: transaction

/-- What the threads have left of the database. -/
structure TiledArrays where
  /-- The number of threads. -/
  workingthread : Nat
  /-- `num_hot_item`. -/
  numHotItem : Nat
  /-- `ntypearray`: the lengths of what each thread has for each mask. -/
  ntypearray : Nat → Nat → Nat
  /-- `hot_node_count`: the transactions that each thread has seen of each mask. -/
  hotNodeCount : Nat → Nat → Nat
  /-- The items that are not hot of the transactions of each mask. -/
  transactions : Nat → List (List Nat)
  /-- `threadtranscontent`. -/
  threadtranscontent : Nat → Nat

namespace TiledArrays

variable (db : TiledArrays)

/-- `sumntype`, before it is sorted. -/
def sumntype (i : Nat) : Nat :=
  ((List.range db.workingthread).map fun j => db.ntypearray j i).sum

/-- `ntypeoffsetbase`. -/
def ntypeoffsetbase (i : Nat) : Nat := ((List.range i).map db.sumntype).sum

/-- `ntypeoffsetend`. -/
def ntypeoffsetend (i : Nat) : Nat := db.ntypeoffsetbase i + db.sumntype i

end TiledArrays

/-- A tiled database. -/
structure Tiled extends TiledArrays where
  /-- There is a thread. -/
  some_thread : 0 < workingthread
  /-- Masks are of 16 bits. -/
  hot_le : numHotItem ≤ hotItemNum
  /-- A mask has bits of hot items only. -/
  mask_lt : ∀ ntype, transactions ntype ≠ [] → ntype < 2 ^ numHotItem
  /-- A transaction of hot items only is not in the region of its mask. -/
  cold : ∀ ntype, ∀ transaction ∈ transactions ntype, transaction ≠ []
  /-- The threads have counted the entries of the region. -/
  measured : ∀ ntype < hotNodeNum,
    toTiledArrays.sumntype ntype = (wordsOf (transactions ntype)).length
  /-- The threads have counted the transactions. -/
  counted : ∀ ntype, transactions ntype ≠ [] → ∃ j < workingthread, 0 < hotNodeCount j ntype
  /-- The transactions stand in the region. -/
  region : ∀ ntype < hotNodeNum, (List.range' (toTiledArrays.ntypeoffsetbase ntype)
    (toTiledArrays.sumntype ntype)).map threadtranscontent = wordsOf (transactions ntype)

/-! ### Parts of the work -/

/-- The parts of the work: `mergedworknum`, `mergedworkbase` and `mergedworkend`, with
`tempworkload`. -/
structure Merge where
  /-- The work of the part that is open. -/
  tempworkload : Nat
  /-- The number of parts. -/
  mergedworknum : Nat
  /-- Where the parts begin. -/
  mergedworkbase : Nat → Nat
  /-- Where the parts end. -/
  mergedworkend : Nat → Nat

namespace Merge

/-- The body of the loop: a part is closed when it has work enough. -/
def step (averworkload : Nat) (work : Nat → Nat) (m : Merge) (i : Nat) : Merge :=
  let tempworkload := m.tempworkload + work i
  if averworkload ≤ tempworkload then
    { tempworkload := 0
      mergedworknum := m.mergedworknum + 1
      mergedworkbase := Function.update m.mergedworkbase (m.mergedworknum + 1) (i + 1)
      mergedworkend := Function.update m.mergedworkend m.mergedworknum (i + 1) }
  else { m with tempworkload := tempworkload }

/-- The loop over `n` masks, and the last part. -/
def parts (averworkload : Nat) (work : Nat → Nat) (n : Nat) : Merge :=
  let m := (List.range n).foldl (step averworkload work) ⟨0, 0, fun _ => 0, fun _ => 0⟩
  { m with
    mergedworknum := m.mergedworknum + 1
    mergedworkend := Function.update m.mergedworkend m.mergedworknum n }

/-- The numbers in a part. -/
def part (m : Merge) (j : Nat) : List Nat :=
  List.range' (m.mergedworkbase j) (m.mergedworkend j - m.mergedworkbase j)

/-- The closed parts are the numbers below the part that is open. -/
structure Cut (m : Merge) (n : Nat) : Prop where
  closed : (List.range m.mergedworknum).flatMap m.part =
    List.range (m.mergedworkbase m.mergedworknum)
  low : m.mergedworkbase m.mergedworknum ≤ n

/-- A part that is closed goes on where the closed parts end. -/
theorem flatMap_close {m : Merge} {n stop : Nat} (cut : m.Cut n) (later : n ≤ stop)
    (base : Nat → Nat) (same : ∀ j ≤ m.mergedworknum, base j = m.mergedworkbase j)
    (temp num : Nat) :
    (List.range (m.mergedworknum + 1)).flatMap
      (Merge.part ⟨temp, num, base, Function.update m.mergedworkend m.mergedworknum stop⟩) =
        List.range stop := by
  rw [List.range_succ, List.flatMap_append, List.flatMap_singleton]
  have before : (List.range m.mergedworknum).flatMap
      (Merge.part ⟨temp, num, base, Function.update m.mergedworkend m.mergedworknum stop⟩) =
        (List.range m.mergedworknum).flatMap m.part := by
    refine List.flatMap_congr fun j member => ?_
    have below := List.mem_range.mp member
    unfold part
    dsimp only
    rw [same j below.le, Function.update_of_ne (by omega)]
  rw [before, cut.closed]
  unfold part
  dsimp only
  rw [same _ le_rfl, Function.update_self, List.range_eq_range', List.range_eq_range']
  have joined : List.range' 0 (m.mergedworkbase m.mergedworknum) ++
      List.range' (0 + m.mergedworkbase m.mergedworknum)
        (stop - m.mergedworkbase m.mergedworknum) = _ := List.range'_append_1
  rw [Nat.zero_add, Nat.add_sub_of_le (cut.low.trans later)] at joined
  exact joined

/-- The parts make up all numbers. -/
theorem flatMap_parts (averworkload : Nat) (work : Nat → Nat) (n : Nat) :
    (List.range (parts averworkload work n).mergedworknum).flatMap
      (parts averworkload work n).part =
      List.range n := by
  have cut :
      ((List.range n).foldl (step averworkload work) ⟨0, 0, fun _ => 0, fun _ => 0⟩).Cut n := by
    induction n with
    | zero => exact ⟨rfl, le_rfl⟩
    | succ n ih =>
      rw [List.range_succ, List.foldl_append]
      generalize (List.range n).foldl (step averworkload work) ⟨0, 0, fun _ => 0, fun _ => 0⟩ = m
        at ih ⊢
      show (step averworkload work m n).Cut (n + 1)
      unfold step
      dsimp only
      split
      · refine ⟨?_, ?_⟩
        · refine (flatMap_close ih (Nat.le_succ n) _ (fun j below => ?_) _ _).trans ?_
          · exact Function.update_of_ne (by omega) _ _
          · dsimp only
            rw [Function.update_self]
        · dsimp only
          rw [Function.update_self]
      · exact ⟨ih.closed, ih.low.trans (Nat.le_succ n)⟩
  exact flatMap_close cut le_rfl _ (fun _ _ => rfl) _ _

end Merge

/-! ### The masks in the order of their work -/

namespace Tiled

variable (db : Tiled)

variable {db} {p : Sorting.Pairs Nat Nat}

/-- The masks that have transactions are masks. -/
theorem known_of_transactions {ntype : Nat} (some : db.transactions ntype ≠ []) :
    ntype < hotNodeNum :=
  (db.mask_lt ntype some).trans_le (Nat.pow_le_pow_right (by decide) db.hot_le)

end Tiled

/-! ### Nodes for the masks -/

/-- `hot_node_index`: the loop goes down from the highest of the hot items to the first one in the
mask. -/
def hotNodeIndex (i : Nat) : Nat → Nat
  | 0 => 0
  | j + 1 => if i.testBit j then j else hotNodeIndex i j

/-- What `database_tiling` has when it makes the nodes for the masks. -/
structure Hot where
  /-- The nodes. -/
  arena : Arena Int Nat
  /-- `hashtable` of the first thread: the nodes of the masks. -/
  hashtable : Nat → Option Nat
  /-- `hot_node_count` of the first thread. -/
  hotNodeCount : Nat → Nat
  /-- `threadworkload` of the first thread. -/
  threadworkload : List Nat
  /-- `global_nodenum` of the first thread. -/
  globalNodenum : Int → Nat

namespace Tiled

variable (db : Tiled)

/-- Only the root is there. -/
def hotStart : Hot where
  arena := ⟨fun _ => ⟨-1, 0, []⟩, 1⟩
  hashtable ntype := if ntype = 0 then some 0 else none
  hotNodeCount := db.hotNodeCount 0
  threadworkload := []
  globalNodenum _ := 0

/-- The body of the loop over the masks. -/
def hotStep (h : Hot) (i : Nat) : Hot :=
  let count := h.hotNodeCount i +
    ((List.range' 1 (db.workingthread - 1)).map fun j => db.hotNodeCount j i).sum
  if count = 0 then h
  else
    let step := hotNodeIndex i db.numHotItem
    let parent := i ^^^ (1 <<< step)
    let hotNodeCount := Function.update h.hotNodeCount parent (h.hotNodeCount parent + count)
    { arena := h.arena.plant ⟨step, count, []⟩
      hashtable := Function.update h.hashtable i (some h.arena.next)
      hotNodeCount := Function.update hotNodeCount i 0
      threadworkload :=
        if db.sumntype i = 0 then h.threadworkload ++ [i] else h.threadworkload
      globalNodenum :=
        if db.sumntype i = 0 then
          Function.update h.globalNodenum step (h.globalNodenum step + 1)
        else h.globalNodenum }

/-- The loop over the masks, from the greatest one on. -/
def hotNodes : Hot :=
  (List.range' 1 (2 ^ db.numHotItem - 1)).reverse.foldl db.hotStep db.hotStart

/-- The masks from a number on have been treated. -/
structure Treated (h : Hot) (word : Nat → Nat × List Int) (k : Nat) : Prop where
  /-- Each node is the root of a tree of its own. -/
  formed : h.arena.Formed word
  /-- The masks of the nodes. -/
  roots : ∀ a < h.arena.next, (word a).2 = [] ∧ ((word a).1 = 0 ∨ k ≤ (word a).1)
  /-- The table has the nodes. -/
  table : ∀ ntype root, h.hashtable ntype = some root →
    root < h.arena.next ∧ word root = (ntype, [])
  /-- There is a node for each mask that occurs. -/
  made : ∀ ntype, ntype = 0 ∨ k ≤ ntype ∧ ntype < 2 ^ db.numHotItem →
    (∃ j < db.workingthread, 0 < db.hotNodeCount j ntype) → ∃ root, h.hashtable ntype = some root
  /-- No count has become less. -/
  counts : ∀ ntype < k, db.hotNodeCount 0 ntype ≤ h.hotNodeCount ntype

variable {db} {h : Hot} {word : Nat → Nat × List Int}

/-- No transaction has been treated at the start. -/
theorem treated_start : db.Treated db.hotStart (fun _ => (0, [])) (2 ^ db.numHotItem) := by
  constructor
  · constructor
    · intro a below c member
      exact nomatch member
    · exact fun _ _ => List.nodup_nil
    · intro a below b below' _
      have first : a < 1 := below
      have second : b < 1 := below'
      omega
    · intro c _ w x path
      simp at path
  · exact fun _ _ => ⟨rfl, .inl rfl⟩
  · intro ntype root found
    unfold hotStart at found ⊢
    dsimp only at found ⊢
    split at found
    · rename_i zero
      obtain rfl := Option.some.inj found
      exact ⟨Nat.one_pos, by rw [zero]⟩
    · exact nomatch found
  · rintro ntype (rfl | ⟨low, high⟩) _
    · exact ⟨0, rfl⟩
    · omega
  · exact fun _ _ => le_rfl

/-- A mask is treated. -/
theorem Treated.step {i : Nat} (positive : 0 < i) (treated : db.Treated h word (i + 1)) :
    ∃ word', db.Treated (db.hotStep h i) word' i := by
  obtain ⟨formed, roots, table, made, counts⟩ := treated
  unfold hotStep
  dsimp only
  split
  · rename_i none
    refine ⟨word, formed, fun a below => ?_, table, ?_, fun ntype below => counts ntype (by omega)⟩
    · obtain ⟨empty, place⟩ := roots a below
      exact ⟨empty, by omega⟩
    · rintro ntype place ⟨j, known, occurs⟩
      by_cases here : ntype = i
      · subst here
        rcases Nat.eq_zero_or_pos j with rfl | later
        · have own := counts ntype (Nat.lt_succ_self _)
          omega
        · have member : j ∈ List.range' 1 (db.workingthread - 1) :=
            List.mem_range'_1.mpr (by omega)
          have share := List.single_le_sum (fun _ _ => Nat.zero_le _) _
            (List.mem_map_of_mem (f := fun j => db.hotNodeCount j ntype) member)
          omega
      · exact made ntype (by omega) ⟨j, known, occurs⟩
  · have fresh : ∀ c < h.arena.next, word c ≠ (i, []) := by
      intro c below same
      have place := (roots c below).2
      rw [same] at place
      dsimp only at place
      omega
    refine ⟨Function.update word h.arena.next (i, []), formed.plant i _ rfl fresh, ?_, ?_, ?_, ?_⟩
    · intro a bound
      rcases Nat.lt_succ_iff_lt_or_eq.mp bound with below | rfl
      · rw [Function.update_of_ne (by omega)]
        obtain ⟨empty, place⟩ := roots a below
        exact ⟨empty, by omega⟩
      · rw [Function.update_self]
        exact ⟨rfl, .inr le_rfl⟩
    · intro ntype root found
      dsimp only at found ⊢
      by_cases here : ntype = i
      · rw [here, Function.update_self] at found
        obtain rfl := Option.some.inj found
        rw [Function.update_self, here]
        exact ⟨Nat.lt_succ_self _, rfl⟩
      · rw [Function.update_of_ne here] at found
        obtain ⟨below, path⟩ := table ntype root found
        rw [Function.update_of_ne (by omega)]
        exact ⟨Nat.lt_succ_of_lt below, path⟩
    · intro ntype place occurs
      dsimp only
      by_cases here : ntype = i
      · rw [here, Function.update_self]
        exact ⟨_, rfl⟩
      · rw [Function.update_of_ne here]
        exact made ntype (by omega) occurs
    · intro ntype below
      dsimp only
      rw [Function.update_of_ne (by omega)]
      have before := counts ntype (by omega)
      by_cases parent : ntype = i ^^^ (1 <<< hotNodeIndex i db.numHotItem)
      · rw [← parent, Function.update_self]
        omega
      · rw [Function.update_of_ne parent]
        exact before

/-- There is a node for each mask that has transactions, and no node has children yet. -/
theorem hotNodes_spec (db : Tiled) : ∃ word, db.Treated db.hotNodes word 1 := by
  have loop : ∀ (count : Nat) (h : Hot) (word : Nat → Nat × List Int),
      db.Treated h word (count + 1) →
      ∃ word', db.Treated ((List.range' 1 count).reverse.foldl db.hotStep h) word' 1 := by
    intro count
    induction count with
    | zero => exact fun h word treated => ⟨word, treated⟩
    | succ count ih =>
      intro h word treated
      rw [List.range'_1_concat, List.reverse_append, List.foldl_append]
      obtain ⟨word', treated'⟩ := Treated.step (show 0 < 1 + count by omega)
        (show db.Treated h word (1 + count + 1) by rw [Nat.add_comm 1 count]; exact treated)
      exact ih _ word' (by rw [Nat.add_comm count 1]; exact treated')
  have all : 2 ^ db.numHotItem - 1 + 1 = 2 ^ db.numHotItem :=
    Nat.sub_add_cancel (Nat.one_le_two_pow)
  exact loop _ _ _ (by rw [all]; exact treated_start)

end Tiled

end P3arsec.Freqmine
