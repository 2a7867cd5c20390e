import P3arsec.Freqmine.FirstTree
import P3arsec.Freqmine.Narrowing

/-!
# The conditional pattern base of an item

`FPArray_conditional_pattern_base` counts the items on the prefix paths of the nodes of an item and
collects those that are frequent, and `scan1_DB` sorts them. An item of the stored tree is found in
`global_order_array` under its number there: its place among the sorted items, or -1 when it is on a
path but not frequent. A thread has the arrays for this once, for all its trees.
-/

namespace P3arsec.Freqmine

open P3arsec.Lib

/-- `hot_item_num1`. -/
def hotItemNum1 : Nat := 6

/-- A tree that is stored as an FP-array. -/
structure StoredTree where
  /-- The number of items of the first tree. -/
  firstItemno : Nat
  /-- The number of items. -/
  itemno : Nat
  /-- `table`: the items as they are numbered in the first tree. -/
  table : Nat → Nat
  /-- The number of bytes of an entry. -/
  width : Nat
  /-- `new_data_num`, the number of entries. -/
  size : Nat
  /-- `ItemArray`. -/
  itemArray : Bytes
  /-- `NodeArrayList`: the nodes of each item. -/
  nodeArrayList : Nat → List PathNode
  /-- The items are items of the first tree. -/
  itemno_le : itemno ≤ firstItemno
  /-- The items are different. -/
  table_inj : ∀ i < itemno, ∀ j < itemno, table i = table j → i = j
  /-- A node has a prefix path, with different items that are smaller than its own. -/
  path_lt : ∀ item < itemno, ∀ node ∈ nodeArrayList item,
    ∃ path, prefixPath width (endMark width) size itemArray node.begin = some path ∧
      path.Nodup ∧ ∀ other ∈ path, other < item
  /-- A node counts something. -/
  count_pos : ∀ item < itemno, ∀ node ∈ nodeArrayList item, 0 < node.count

/-- The arrays of a thread. -/
structure Scratch where
  /-- `supp`. -/
  supp : Nat → Nat
  /-- `global_table_array`. -/
  globalTableArray : Nat → Nat
  /-- `global_count_array`. -/
  globalCountArray : Nat → Nat
  /-- `global_temp_order_array`. -/
  globalTempOrderArray : Nat → Int
  /-- `global_order_array`. -/
  globalOrderArray : Nat → Int
  /-- `sum_item_num`. -/
  sumItemNum : Nat
  /-- `origin`. -/
  origin : Nat → Nat
  /-- `compact`. -/
  compact : Nat → Int
  /-- `hot_node_count`. -/
  hotNodeCount : Nat → Nat
  /-- `hashtable`: the nodes of the masks. -/
  hashtable : Nat → Option Nat
  /-- `fast_rightsib_table`: the children of the first masks. -/
  fastRightsibTable : Nat → Int → Option Nat
  /-- `rightsib_backpatch_stack`: the entries of the table that were set. -/
  rightsibBackpatchStack : List (Nat × Int)
  /-- `new_data_num`. -/
  newDataNum : Nat

/-- The entries that a call relies on are cleared. -/
structure Scratch.Cleared (s : Scratch) : Prop where
  supp : ∀ i, s.supp i = 0
  origin : ∀ i, s.origin i = 0
  hotNodeCount : ∀ ntype, ntype ≠ 0 → s.hotNodeCount ntype = 0
  hashtable : ∀ ntype, ntype ≠ 0 → s.hashtable ntype = none
  fastRightsibTable : ∀ ntype x, s.fastRightsibTable ntype x = none

/-- `FP_tree`. -/
structure FPTree where
  /-- The number of items. -/
  itemno : Nat
  /-- `count`. -/
  count : Nat → Nat
  /-- `table`. -/
  table : Nat → Nat
  /-- `nodenum`: the number of nodes of each item. -/
  nodenum : Int → Nat
  /-- `num_hot_item`. -/
  numHotItem : Nat
  /-- The nodes, the first of which is `Root`. -/
  arena : Arena Int Nat

/-- A tree that is built, and the arrays of its thread. -/
structure Build where
  /-- The tree. -/
  fptree : FPTree
  /-- The arrays. -/
  scratch : Scratch

/-- A tree that has its root only, with the arrays as they are before `FPArray_scan2_DB`. -/
structure Build.Begun (b : Build) : Prop where
  /-- The root. -/
  arena : b.fptree.arena = ⟨fun _ => ⟨-1, 0, []⟩, 1⟩
  nodenum : ∀ x, b.fptree.nodenum x = 0
  root : b.scratch.hashtable 0 = some 0
  /-- No entry of the table is to be cleared. -/
  stack : b.scratch.rightsibBackpatchStack = []
  /-- The arrays. -/
  cleared : b.scratch.Cleared

namespace StoredTree

variable (tree : StoredTree)

/-- The items on the prefix path of a node. -/
def path (node : PathNode) : Option (List Nat) :=
  prefixPath tree.width (endMark tree.width) tree.size tree.itemArray node.begin

/-- `num_hot_item` of the first tree. -/
def firstHotItem : Nat := min hotItemNum tree.firstItemno

/-- The items of a path are counted. -/
def countPath (counted : (Nat → Nat) × Nat) (node : PathNode) : Option ((Nat → Nat) × Nat) :=
  (tree.path node).map fun path =>
    (path.foldl (fun supp item => Function.update supp item (supp item + node.count)) counted.1,
      counted.2 + path.length)

/-- An item is collected when it is frequent, and marked when it is not. -/
def collect (threshold : Int) (collected : Scratch × Nat) (i : Nat) : Scratch × Nat :=
  let s := collected.1
  let j := collected.2
  let next : Scratch × Nat :=
    if threshold ≤ s.supp i then
      ({ s with
        globalTableArray := Function.update s.globalTableArray j (tree.table i)
        globalCountArray := Function.update s.globalCountArray j (s.supp i) }, j + 1)
    else if 0 < s.supp i then
      ({ s with
        globalTempOrderArray := Function.update s.globalTempOrderArray (tree.table i) (-1) }, j)
    else (s, j)
  ({ next.1 with supp := Function.update next.1.supp i 0 }, next.2)

/-- `FPArray_conditional_pattern_base`, with the number of frequent items. -/
def conditionalPatternBase (threshold : Int) (itemname : Nat) (s : Scratch) :
    Option (Scratch × Nat) :=
  ((tree.nodeArrayList itemname).foldlM tree.countPath (s.supp, 0)).map fun counted =>
    (List.range itemname).foldl (tree.collect threshold)
      ({ s with supp := counted.1, sumItemNum := counted.2 }, 0)

/-- `num_hot_item` of a tree with some items. -/
def hotItems (itemno sumItemNum : Nat) : Nat :=
  let numHotItem := if itemno > hotItemNum1 * 2 then hotItemNum1 else itemno / 2
  if 1 <<< numHotItem > sumItemNum / 8 then 0 else numHotItem

/-- `init` and `scan1_DB` of a tree with some items, for an item of the stored tree. -/
def scan1DB (sorthresh item itemno : Nat) (s : Scratch) : Option Build :=
  (Sorting.sort sorthresh itemno (itemno + 1)
    (fun i => (s.globalCountArray i, s.globalTableArray i)) 0 itemno).map fun p =>
    let globalTempOrderArray := (List.range itemno).foldl
      (fun array (i : Nat) => Function.update array (p i).2 (i : Int)) s.globalTempOrderArray
    { fptree :=
        { itemno
          count := fun i => (p i).1
          table := fun i => (p i).2
          nodenum := fun _ => 0
          numHotItem := hotItems itemno s.sumItemNum
          arena := ⟨fun _ => ⟨-1, 0, []⟩, 1⟩ }
      scratch :=
        { s with
          globalTempOrderArray
          globalOrderArray := fun i =>
            if i < item then globalTempOrderArray (tree.table i) else s.globalOrderArray i
          hashtable := Function.update s.hashtable 0 (some 0)
          rightsibBackpatchStack := []
          newDataNum := 0 } }

/-! ### The pattern base -/

/-- The items on the prefix path of a node, none where it can not be read. -/
def pathOf (node : PathNode) : List Nat := (tree.path node).getD []

/-- The count of the nodes of an item that have another item on their prefix paths. -/
def support (item i : Nat) : Nat :=
  ((tree.nodeArrayList item).map fun node =>
    if i ∈ tree.pathOf node then node.count else 0).sum

/-- The first items that are frequent in the pattern base of an item. -/
def frequent (threshold : Int) (item k : Nat) : List Nat :=
  (List.range k).filter fun i => threshold ≤ tree.support item i

variable {tree} {threshold : Int} {item : Nat}

/-- The paths of an item can be read. -/
theorem pathOf_spec (known : item < tree.itemno) {node : PathNode}
    (member : node ∈ tree.nodeArrayList item) : tree.path node = some (tree.pathOf node) ∧
      (tree.pathOf node).Nodup ∧ ∀ other ∈ tree.pathOf node, other < item := by
  obtain ⟨path, read, nodup, below⟩ := tree.path_lt item known node member
  have same : tree.path node = some path := read
  unfold pathOf
  rw [same]
  exact ⟨rfl, nodup, below⟩

/-- An item on a path has some support. -/
theorem support_pos (known : item < tree.itemno) {node : PathNode}
    (member : node ∈ tree.nodeArrayList item) {i : Nat} (on_path : i ∈ tree.pathOf node) :
    0 < tree.support item i := by
  have share := List.single_le_sum (fun _ _ => Nat.zero_le _) _
    (List.mem_map_of_mem (f := fun node => if i ∈ tree.pathOf node then node.count else 0) member)
  rw [if_pos on_path] at share
  exact (tree.count_pos item known node member).trans_le share

/-- The items of a path are counted once. -/
theorem foldl_supp {path : List Nat} (nodup : path.Nodup) (count : Nat) (supp : Nat → Nat)
    (i : Nat) :
    path.foldl (fun supp item => Function.update supp item (supp item + count)) supp i =
      supp i + if i ∈ path then count else 0 := by
  induction path generalizing supp with
  | nil => rfl
  | cons head path ih =>
    obtain ⟨fresh, nodup⟩ := List.nodup_cons.mp nodup
    rw [List.foldl_cons, ih nodup]
    by_cases here : i = head
    · rw [here, Function.update_self, if_neg fresh, if_pos List.mem_cons_self]
      rfl
    · rw [Function.update_of_ne here]
      simp [here]

/-- The first loop of `FPArray_conditional_pattern_base`. -/
theorem foldlM_countPath (known : item < tree.itemno) (nodes : List PathNode)
    (part : nodes ⊆ tree.nodeArrayList item) (supp : Nat → Nat) (length : Nat) :
    ∃ length', nodes.foldlM tree.countPath (supp, length) =
      some ((fun i => supp i +
        (nodes.map fun node => if i ∈ tree.pathOf node then node.count else 0).sum), length') := by
  induction nodes generalizing supp length with
  | nil => exact ⟨length, rfl⟩
  | cons node nodes ih =>
    obtain ⟨here, part⟩ := List.cons_subset.mp part
    obtain ⟨read, nodup, -⟩ := pathOf_spec known here
    rw [List.foldlM_cons, countPath, read]
    obtain ⟨length', result⟩ := ih part
      ((tree.pathOf node).foldl
        (fun supp item => Function.update supp item (supp item + node.count)) supp)
      (length + (tree.pathOf node).length)
    refine ⟨length', result.trans ?_⟩
    simp only [foldl_supp nodup, List.map_cons, List.sum_cons, add_assoc]

variable (tree threshold item) in
/-- What the second loop of `FPArray_conditional_pattern_base` has done for the first items. -/
structure Collected (s : Scratch) (k : Nat) (collected : Scratch × Nat) : Prop where
  /-- The frequent items are collected. -/
  length : collected.2 = (tree.frequent threshold item k).length
  table : (List.range collected.2).map collected.1.globalTableArray =
    (tree.frequent threshold item k).map tree.table
  counts : (List.range collected.2).map collected.1.globalCountArray =
    (tree.frequent threshold item k).map (tree.support item)
  /-- The others are marked when they are on a path. -/
  rare : ∀ i < k, tree.support item i < threshold → 0 < tree.support item i →
    collected.1.globalTempOrderArray (tree.table i) = -1
  /-- The supports have been cleared. -/
  supp : ∀ i, collected.1.supp i = if i < k then 0 else tree.support item i
  /-- Nothing else has changed. -/
  rest : collected.1 = { s with
    supp := collected.1.supp
    globalTableArray := collected.1.globalTableArray
    globalCountArray := collected.1.globalCountArray
    globalTempOrderArray := collected.1.globalTempOrderArray }

/-- One more entry of an array is read. -/
theorem map_range_update {α : Type} (array : Nat → α) (j : Nat) (value : α) :
    (List.range (j + 1)).map (Function.update array j value) =
      (List.range j).map array ++ [value] := by
  rw [List.range_succ, List.map_append, List.map_singleton, Function.update_self]
  refine congrArg (· ++ _) (List.map_congr_left fun k member => ?_)
  rw [Function.update_of_ne (List.mem_range.mp member).ne]

/-- The frequent items below the next one. -/
theorem frequent_succ (k : Nat) : tree.frequent threshold item (k + 1) =
    tree.frequent threshold item k ++ if threshold ≤ tree.support item k then [k] else [] := by
  unfold frequent
  rw [List.range_succ, List.filter_append]
  by_cases here : threshold ≤ tree.support item k
  · simp [here]
  · simp [here]

/-- The second loop of `FPArray_conditional_pattern_base`. -/
theorem foldl_collect {s : Scratch} (supp : ∀ i, s.supp i = tree.support item i) (k : Nat) :
    tree.Collected threshold item s k ((List.range k).foldl (tree.collect threshold) (s, 0)) := by
  induction k with
  | zero =>
    exact ⟨rfl, rfl, rfl, fun i early => absurd early (Nat.not_lt_zero i), supp, rfl⟩
  | succ k ih =>
    rw [List.range_succ, List.foldl_append, List.foldl_cons, List.foldl_nil]
    generalize (List.range k).foldl (tree.collect threshold) (s, 0) = collected at ih
    obtain ⟨length, table, counts, rare, supp', rest⟩ := ih
    have here : collected.1.supp k = tree.support item k := by
      rw [supp' k, if_neg (Nat.lt_irrefl k)]
    have cleared : ∀ i, Function.update collected.1.supp k 0 i =
        if i < k + 1 then 0 else tree.support item i := by
      intro i
      by_cases same : i = k
      · rw [same, Function.update_self, if_pos (Nat.lt_succ_self k)]
      · rw [Function.update_of_ne same, supp' i]
        exact if_congr (by omega) rfl rfl
    unfold collect
    dsimp only
    rw [here]
    by_cases often : threshold ≤ tree.support item k
    · rw [if_pos often]
      constructor
      · rw [frequent_succ, if_pos often, List.length_append, ← length]
        rfl
      · rw [frequent_succ, if_pos often, List.map_append, ← table]
        exact map_range_update _ _ _
      · rw [frequent_succ, if_pos often, List.map_append, ← counts]
        exact map_range_update _ _ _
      · intro i early less some
        rcases Nat.lt_succ_iff_lt_or_eq.mp early with earlier | rfl
        · exact rare i earlier less some
        · exact absurd often (not_le.mpr less)
      · exact cleared
      · rw [rest]
    rw [if_neg often]
    have same : tree.frequent threshold item (k + 1) = tree.frequent threshold item k := by
      rw [frequent_succ, if_neg often, List.append_nil]
    split
    · constructor
      · rw [same]
        exact length
      · rw [same]
        exact table
      · rw [same]
        exact counts
      · intro i early less some
        dsimp only
        rw [Function.update_apply]
        split
        · rfl
        · rename_i other
          rcases Nat.lt_succ_iff_lt_or_eq.mp early with earlier | rfl
          · exact rare i earlier less some
          · exact absurd rfl other
      · exact cleared
      · rw [rest]
    · rename_i none
      constructor
      · rw [same]
        exact length
      · rw [same]
        exact table
      · rw [same]
        exact counts
      · intro i early less some
        rcases Nat.lt_succ_iff_lt_or_eq.mp early with earlier | rfl
        · exact rare i earlier less some
        · exact absurd some none
      · exact cleared
      · rw [rest]

variable (threshold) in
/-- `FPArray_conditional_pattern_base` collects the frequent items. -/
theorem conditionalPatternBase_spec (known : item < tree.itemno) {s : Scratch}
    (supp : ∀ i, s.supp i = 0) : ∃ length collected,
      tree.conditionalPatternBase threshold item s = some collected ∧
      tree.Collected threshold item
        { s with supp := tree.support item, sumItemNum := length } item collected := by
  obtain ⟨length, counted⟩ :=
    foldlM_countPath known (tree.nodeArrayList item) (List.Subset.refl _) s.supp 0
  refine ⟨length, _, ?_, foldl_collect (fun i => rfl) item⟩
  unfold conditionalPatternBase
  rw [counted, Option.map_some]
  simp only [supp, zero_add]
  rfl

/-! ### The sorted items -/

/-- Each entry gets its place. -/
theorem foldl_order {n : Nat} {key : Nat → Nat}
    (inj : ∀ j < n, ∀ j' < n, key j = key j' → j = j') (array : Nat → Int) :
    (∀ j < n, (List.range n).foldl
        (fun array (i : Nat) => Function.update array (key i) (i : Int)) array (key j) = j) ∧
      ∀ x, (∀ j < n, key j ≠ x) → (List.range n).foldl
        (fun array (i : Nat) => Function.update array (key i) (i : Int)) array x = array x := by
  induction n with
  | zero => exact ⟨fun j early => absurd early (Nat.not_lt_zero j), fun x _ => rfl⟩
  | succ n ih =>
    obtain ⟨placed, others⟩ := ih fun j early j' early' =>
      inj j (Nat.lt_succ_of_lt early) j' (Nat.lt_succ_of_lt early')
    rw [List.range_succ, List.foldl_append, List.foldl_cons, List.foldl_nil]
    constructor
    · intro j early
      rcases Nat.lt_succ_iff_lt_or_eq.mp early with earlier | rfl
      · have other : key j ≠ key n := fun same =>
          absurd (inj j early n (Nat.lt_succ_self n) same) earlier.ne
        rw [Function.update_of_ne other]
        exact placed j earlier
      · exact Function.update_self _ _ _
    · intro x apart
      rw [Function.update_of_ne (apart n (Nat.lt_succ_self n)).symm]
      exact others x fun j early => apart j (Nat.lt_succ_of_lt early)

/-- A permutation that leaves the numbers from `n` on alone permutes the numbers below `n`. -/
theorem perm_lt {n : Nat} {σ : Equiv.Perm Nat} (outside : ∀ x, n ≤ x → σ x = x) {x : Nat} :
    σ x < n ↔ x < n := by
  constructor
  · intro below
    by_contra above
    rw [outside x (Nat.le_of_not_lt above)] at below
    exact above below
  · intro below
    by_contra above
    have fixed := σ.injective (outside (σ x) (Nat.le_of_not_lt above))
    rw [fixed] at above
    exact above below

variable (tree threshold item) in
/-- The items of a conditional tree, where `old` has their numbers in the stored tree: the frequent
items, from the most frequent one on. -/
structure Items (fptree : FPTree) (old : Nat → Nat) : Prop where
  /-- The items are frequent. -/
  frequent : ∀ j < fptree.itemno, old j < item ∧ threshold ≤ tree.support item (old j)
  /-- Each frequent item is there once. -/
  inj : ∀ j < fptree.itemno, ∀ j' < fptree.itemno, old j = old j' → j = j'
  surj : ∀ i < item, threshold ≤ tree.support item i → ∃ j < fptree.itemno, old j = i
  /-- The names and the counts. -/
  table : ∀ j < fptree.itemno, fptree.table j = tree.table (old j)
  count : ∀ j < fptree.itemno, fptree.count j = tree.support item (old j)
  /-- The most frequent items come first. -/
  falling : ∀ j j', j ≤ j' → j' < fptree.itemno → fptree.count j' ≤ fptree.count j

variable (tree threshold item) in
/-- What `FPArray_scan2_DB` relies on. -/
structure Ordered (b : Build) (old : Nat → Nat) : Prop extends
    tree.Items threshold item b.fptree old where
  /-- The items are found under their numbers in the stored tree. -/
  order : ∀ j < b.fptree.itemno, b.scratch.globalOrderArray (old j) = j
  /-- The items of the paths that are not frequent are not found. -/
  rare : ∀ i < item, tree.support item i < threshold → 0 < tree.support item i →
    b.scratch.globalOrderArray i = -1
  /-- The hot items are items. -/
  hot_le : b.fptree.numHotItem ≤ b.fptree.itemno
  hot_first : b.fptree.numHotItem ≤ tree.firstHotItem

/-- There is a bound on the number of hot items. -/
theorem hotItems_le (itemno sumItemNum : Nat) :
    hotItems itemno sumItemNum ≤ hotItemNum1 ∧ hotItems itemno sumItemNum ≤ itemno / 2 := by
  unfold hotItems hotItemNum1
  dsimp only
  split <;> split <;> omega

/-- An item that is not smaller is on no path. -/
theorem support_eq_zero (known : item < tree.itemno) {i : Nat} (above : item ≤ i) :
    tree.support item i = 0 := by
  unfold support
  refine List.sum_eq_zero fun value member => ?_
  obtain ⟨node, known', rfl⟩ := List.mem_map.mp member
  refine if_neg fun on_path => ?_
  exact absurd ((pathOf_spec known known').2.2 i on_path) (not_lt.mpr above)

/-- The frequent items below one. -/
theorem mem_frequent {k i : Nat} : i ∈ tree.frequent threshold item k ↔
    i < k ∧ threshold ≤ tree.support item i := by
  unfold frequent
  rw [List.mem_filter, List.mem_range, decide_eq_true_iff]

/-- `scan1_DB` sorts the frequent items. -/
theorem scan1DB_spec (known : item < tree.itemno) (sorthresh : Nat) {s : Scratch}
    (cleared : s.Cleared) {sum : Nat} {collected : Scratch × Nat}
    (done : tree.Collected threshold item
      { s with supp := tree.support item, sumItemNum := sum } item collected) :
    ∃ b old, tree.scan1DB sorthresh item collected.2 collected.1 = some b ∧
      tree.Ordered threshold item b old ∧ b.Begun := by
  obtain ⟨length, table, counts, rare, supp, rest⟩ := done
  obtain ⟨p, sorted, ⟨σ, outside, moved⟩, falling⟩ := Sorting.sort_spec (n := collected.2) (i := 0)
    (p := fun i => (collected.1.globalCountArray i, collected.1.globalTableArray i)) sorthresh
    (Nat.lt_succ_self collected.2) (le_refl collected.2)
  have inside : ∀ {x}, σ x < collected.2 ↔ x < collected.2 :=
    perm_lt fun x out => outside x (.inr out)
  -- the entries are those of the frequent items
  have entry : ∀ x, (below : x < collected.2) →
      ∃ i, i < item ∧ threshold ≤ tree.support item i ∧
        (tree.frequent threshold item item)[x]? = some i ∧
        collected.1.globalTableArray x = tree.table i ∧
        collected.1.globalCountArray x = tree.support item i := by
    intro x below
    rw [length] at below
    have stands := List.getElem?_eq_getElem below
    obtain ⟨early, often⟩ := mem_frequent.mp (List.getElem_mem below)
    refine ⟨_, early, often, stands, ?_, ?_⟩
    · have same := congrArg (·[x]?) table
      simpa [length, below, stands] using same
    · have same := congrArg (·[x]?) counts
      simpa [length, below, stands] using same
  let old : Nat → Nat := fun j => ((tree.frequent threshold item item)[σ j]?).getD 0
  have sorted_entry : ∀ j < collected.2, old j < item ∧ threshold ≤ tree.support item (old j) ∧
      (tree.frequent threshold item item)[σ j]? = some (old j) ∧
      p j = (tree.support item (old j), tree.table (old j)) := by
    intro j early
    obtain ⟨i, below, often, stands, name, count⟩ := entry (σ j) (inside.mpr early)
    have same : old j = i := by
      show ((tree.frequent threshold item item)[σ j]?).getD 0 = i
      rw [stands, Option.getD_some]
    rw [same, moved]
    exact ⟨below, often, stands, Prod.ext count name⟩
  have nodup : (tree.frequent threshold item item).Nodup := List.nodup_range.filter _
  have inj : ∀ j < collected.2, ∀ j' < collected.2, old j = old j' → j = j' := by
    intro j early j' early' same
    have stands := (sorted_entry j early).2.2.1
    have stands' := (sorted_entry j' early').2.2.1
    rw [← same, ← stands] at stands'
    refine σ.injective ((List.getElem?_inj ?_ nodup).mp stands'.symm)
    rw [← length]
    exact inside.mpr early
  have key : ∀ j < collected.2, (p j).2 = tree.table (old j) := fun j early =>
    congrArg Prod.snd (sorted_entry j early).2.2.2
  have size : item ≤ tree.itemno := known.le
  have key_inj : ∀ j < collected.2, ∀ j' < collected.2, (p j).2 = (p j').2 → j = j' := by
    intro j early j' early' same
    rw [key j early, key j' early'] at same
    refine inj j early j' early' (tree.table_inj _ ?_ _ ?_ same)
    · exact (sorted_entry j early).1.trans_le size
    · exact (sorted_entry j' early').1.trans_le size
  obtain ⟨placed, others⟩ := foldl_order key_inj collected.1.globalTempOrderArray
  unfold scan1DB
  rw [sorted, Option.map_some]
  refine ⟨_, old, rfl, ⟨⟨?_, inj, ?_, key, ?_, ?_⟩, ?_, ?_, ?_, ?_⟩, ⟨rfl, fun _ => rfl,
    ?_, rfl, ?_⟩⟩
  · exact fun j early => ⟨(sorted_entry j early).1, (sorted_entry j early).2.1⟩
  · intro i below often
    obtain ⟨x, stands⟩ := List.mem_iff_getElem?.mp (mem_frequent.mpr ⟨below, often⟩)
    have early : x < collected.2 := by
      rw [length]
      exact (List.getElem?_eq_some_iff.mp stands).1
    have place : σ (σ.symm x) = x := σ.apply_symm_apply x
    have early' : σ.symm x < collected.2 := inside.mp (by rw [place]; exact early)
    refine ⟨σ.symm x, early', ?_⟩
    show ((tree.frequent threshold item item)[σ (σ.symm x)]?).getD 0 = i
    rw [place, stands, Option.getD_some]
  · exact fun j early => congrArg Prod.fst (sorted_entry j early).2.2.2
  · intro j j' ordered early
    exact falling j j' (Nat.zero_le j) ordered early
  · intro j early
    dsimp only
    rw [if_pos (sorted_entry j early).1, ← key j early]
    exact placed j early
  · intro i below less some
    dsimp only
    rw [if_pos below, others]
    · exact rare i below less some
    · intro j early same
      rw [key j early] at same
      have here := tree.table_inj _ ((sorted_entry j early).1.trans_le size) _
        (below.trans_le size) same
      have often := (sorted_entry j early).2.1
      rw [here] at often
      exact absurd often (not_le.mpr less)
  · have bound := (hotItems_le collected.2 collected.1.sumItemNum).2
    dsimp only
    omega
  · obtain ⟨few, half⟩ := hotItems_le collected.2 collected.1.sumItemNum
    have most : collected.2 ≤ item := by
      rw [length]
      exact (List.length_filter_le _ _).trans List.length_range.le
    have first := tree.itemno_le
    unfold hotItemNum1 at few
    unfold firstHotItem hotItemNum
    dsimp only
    omega
  · dsimp only
    rw [Function.update_self]
  · rw [rest]
    constructor
    · intro i
      dsimp only
      rw [supp i]
      split
      · rfl
      · rename_i above
        exact support_eq_zero known (Nat.le_of_not_lt above)
    · exact cleared.origin
    · exact cleared.hotNodeCount
    · intro ntype some
      exact (Function.update_of_ne some _ _).trans (cleared.hashtable ntype some)
    · exact cleared.fastRightsibTable

end StoredTree

end P3arsec.Freqmine
