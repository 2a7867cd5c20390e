import P3arsec.Freqmine.ConditionalBase
import P3arsec.Lib.Graft

/-!
# The paths in the trees of their masks

`FPArray_scan2_DB` reads the prefix paths of the nodes of an item and builds a tree of their
frequent items. The items with the smallest numbers are hot: those of a path make up a mask, and the
others are inserted below the node of the mask, where a table knows the children of the nodes of the
first masks. What is inserted of a path is a word of the tree of its mask; with the items of the
mask in front it is the restricted path.
-/

namespace P3arsec.Freqmine

open P3arsec.Lib

/-- `hot_node_depth`: the number of the hot items in a mask. -/
def hotNodeDepth (i : Nat) (numHotItem : Nat) : Nat := (List.range numHotItem).countP i.testBit

/-- What is read of a path. -/
structure Gathered where
  /-- `origin`: the items that are not hot are set. -/
  origin : Nat → Nat
  /-- The number of items that are not hot. -/
  has : Nat
  /-- The hot items. -/
  ntype : Nat
  /-- The greatest item. -/
  maxItemno : Int

/-- An item of a path is read, under its number in the tree that is built. -/
def Gathered.read (numHotItem : Nat) (g : Gathered) (item : Int) : Gathered :=
  if item < numHotItem then
    if item ≠ -1 then { g with ntype := g.ntype ||| (1 <<< item.toNat) } else g
  else
    { g with
      origin := Function.update g.origin item.toNat 1
      has := g.has + 1
      maxItemno := if item > g.maxItemno then item else g.maxItemno }

namespace Build

/-- `fill_count`. -/
def fillCount (maxItemno : Int) (b : Build) : Build :=
  let low := b.fptree.numHotItem
  let high := (maxItemno + 1).toNat
  let items := (List.range' low (high - low)).filter fun i => b.scratch.origin i ≠ 0
  { b with
    scratch :=
      { b.scratch with
        compact := fun j => if j < items.length then items.getD j 0 else b.scratch.compact j
        origin := fun i => if low ≤ i ∧ i < high then 0 else b.scratch.origin i } }

/-- The rest of some items becomes new nodes below the last node that was found. -/
def extend (counts current depth : Nat) (found : Arena Int Nat × Nat × List Int) (b : Build) :
    Build where
  fptree :=
    { b.fptree with
      arena := found.1.hang counts found.2.1 found.2.2
      nodenum := fun x => b.fptree.nodenum x + found.2.2.count x }
  scratch :=
    { b.scratch with
      newDataNum := b.scratch.newDataNum +
        if found.2.2 = [] then 0
        else if (found.1.node found.2.1).children = [] then found.2.2.length
        else current + depth }

/-- An entry of the table is set, and noted for the end. -/
def backpatch (ntype : Nat) (x : Int) (child : Nat) (b : Build) : Build :=
  { b with
    scratch :=
      { b.scratch with
        fastRightsibTable := Function.update b.scratch.fastRightsibTable ntype
          (Function.update (b.scratch.fastRightsibTable ntype) x (some child))
        rightsibBackpatchStack := b.scratch.rightsibBackpatchStack ++ [(ntype, x)] } }

/-- `FP_tree::insert`. There is no result where the node of the mask is missing. -/
def insert (counts current ntype depth : Nat) (b : Build) : Option Build :=
  (b.scratch.hashtable ntype).map fun root =>
    let items := (List.range current).map b.scratch.compact
    let arena := b.fptree.arena
    if ntype < fastRightsibTableSize then
      match items with
      | [] => b
      | x :: rest =>
        match b.scratch.fastRightsibTable ntype x with
        | none => (b.extend counts current depth (arena, root, x :: rest)).backpatch ntype x
            arena.next
        | some child => b.extend counts current depth
            ((arena.addWeight counts child).descend counts child rest)
    else b.extend counts current depth (arena.descend counts root items)

/-- A mask gets a node where it has none. -/
def makeRoot (hot ntype : Nat) (b : Build) : Build :=
  match b.scratch.hashtable ntype with
  | some _ => b
  | none =>
    { fptree :=
        { b.fptree with arena := b.fptree.arena.plant ⟨hotNodeIndex ntype hot, 0, []⟩ }
      scratch :=
        { b.scratch with
          hashtable := Function.update b.scratch.hashtable ntype (some b.fptree.arena.next) } }

/-- The first loop of `FPArray_scan2_DB`, for a node of the item. -/
def scanNode (tree : StoredTree) (b : Build) (node : PathNode) : Option Build := do
  let path ← tree.path node
  let g := (path.map b.scratch.globalOrderArray).foldl (Gathered.read b.fptree.numHotItem)
    ⟨b.scratch.origin, 0, 0, 0⟩
  let b : Build := { b with
    scratch := { b.scratch with
      origin := g.origin
      hotNodeCount := Function.update b.scratch.hotNodeCount g.ntype
        (b.scratch.hotNodeCount g.ntype + node.count) } }
  let b := b.makeRoot tree.firstHotItem g.ntype
  if 0 < g.has then
    (b.fillCount g.maxItemno).insert node.count g.has g.ntype
      (hotNodeDepth g.ntype tree.firstHotItem)
  else some b

/-- The second loop of `FPArray_scan2_DB`, for a mask: its node is put below that of the mask
without the last hot item. -/
def link (hot : Nat) (b : Build) (i : Nat) : Build :=
  match b.scratch.hashtable i with
  | none => b
  | some current =>
    let step := hotNodeIndex i hot
    let parent := i ^^^ (1 <<< step)
    let count := b.scratch.hotNodeCount i
    let b := b.makeRoot hot parent
    match b.scratch.hashtable parent with
    | none => b
    | some parentNode =>
      { fptree :=
          { b.fptree with
            arena := b.fptree.arena.graft parentNode current count
            nodenum := Function.update b.fptree.nodenum step (b.fptree.nodenum step + 1) }
        scratch :=
          { b.scratch with
            hotNodeCount := Function.update (Function.update b.scratch.hotNodeCount parent
              (b.scratch.hotNodeCount parent + count)) i 0
            hashtable := Function.update b.scratch.hashtable i none
            newDataNum := b.scratch.newDataNum +
              if (b.fptree.arena.node parentNode).children = [] then 1 else hotNodeDepth i hot } }

/-- The end of `FPArray_scan2_DB`: the entries of the table that were set are cleared. -/
def clear (b : Build) : Build :=
  { b with
    scratch := { b.scratch with
      fastRightsibTable := fun ntype x =>
        if (ntype, x) ∈ b.scratch.rightsibBackpatchStack then none
        else b.scratch.fastRightsibTable ntype x } }

end Build

namespace StoredTree

variable (tree : StoredTree)

/-- `FPArray_scan2_DB`. -/
def scan2DB (item : Nat) (b : Build) : Option Build :=
  ((tree.nodeArrayList item).foldlM (Build.scanNode tree) b).map fun b =>
    let b : Build := { b with
      scratch := { b.scratch with newDataNum := b.scratch.newDataNum + 1 } }
    ((List.range' 1 (2 ^ b.fptree.numHotItem - 1)).reverse.foldl
      (Build.link tree.firstHotItem) b).clear

/-- The conditional tree of an item is built. -/
def conditionalTree (threshold : Int) (sorthresh item : Nat) (s : Scratch) : Option Build := do
  let base ← tree.conditionalPatternBase threshold item s
  let b ← tree.scan1DB sorthresh item base.2 base.1
  tree.scan2DB item b

end StoredTree

/-! ### Masks -/

/-- The hot items of a mask. -/
def maskItems (numHotItem ntype : Nat) : List Nat := (List.range numHotItem).filter ntype.testBit

/-- The items of a mask. -/
theorem mem_maskItems {low ntype j : Nat} :
    j ∈ maskItems low ntype ↔ j < low ∧ ntype.testBit j = true := by
  unfold maskItems
  rw [List.mem_filter, List.mem_range]

/-- `hot_node_index` is the last hot item of a mask. -/
theorem hotNodeIndex_spec {i hot : Nat} (positive : 0 < i) (known : i < 2 ^ hot) :
    i.testBit (hotNodeIndex i hot) = true ∧ ∀ j, hotNodeIndex i hot < j → i.testBit j = false := by
  induction hot with
  | zero => omega
  | succ hot ih =>
    have above : ∀ j, hot + 1 ≤ j → i.testBit j = false := fun j high =>
      Nat.testBit_lt_two_pow (known.trans_le (Nat.pow_le_pow_right (by omega) high))
    unfold hotNodeIndex
    split
    · rename_i last
      exact ⟨last, fun j high => above j high⟩
    · rename_i unset
      refine ih (Nat.lt_pow_two_of_testBit i fun j high => ?_)
      rcases Nat.eq_or_lt_of_le high with rfl | higher
      · exact Bool.eq_false_iff.mpr unset
      · exact above j higher

/-- The mask without its last hot item. -/
theorem parent_spec {i hot : Nat} (positive : 0 < i) (known : i < 2 ^ hot) :
    i ^^^ (1 <<< hotNodeIndex i hot) < i ∧
      ∀ j, (i ^^^ (1 <<< hotNodeIndex i hot)).testBit j = true ↔
        i.testBit j = true ∧ j ≠ hotNodeIndex i hot := by
  obtain ⟨last, above⟩ := hotNodeIndex_spec positive known
  have bits : ∀ j, (i ^^^ (1 <<< hotNodeIndex i hot)).testBit j =
      (i.testBit j ^^ decide (hotNodeIndex i hot = j)) := by
    intro j
    rw [Nat.testBit_xor, Nat.shiftLeft_eq, one_mul, Nat.testBit_two_pow]
  constructor
  · refine Nat.lt_of_testBit (hotNodeIndex i hot) ?_ last fun j high => ?_
    · rw [bits, last]
      simp
    · rw [bits]
      simp [high.ne]
  · intro j
    rw [bits]
    by_cases here : hotNodeIndex i hot = j
    · rw [← here, last]
      simp
    · simp [here, Ne.symm here]

/-- The last hot item of a mask comes behind those of the mask without it. -/
theorem maskItems_parent {i low hot : Nat} (positive : 0 < i) (known : i < 2 ^ low)
    (most : low ≤ hot) :
    hotNodeIndex i hot < low ∧
      maskItems low i =
        maskItems low (i ^^^ (1 <<< hotNodeIndex i hot)) ++ [hotNodeIndex i hot] := by
  have known' : i < 2 ^ hot := known.trans_le (Nat.pow_le_pow_right (by omega) most)
  obtain ⟨last, above⟩ := hotNodeIndex_spec positive known'
  obtain ⟨-, bits⟩ := parent_spec positive known'
  have inside : hotNodeIndex i hot < low := by
    by_contra outside
    have unset := Nat.testBit_lt_two_pow
      (known.trans_le (Nat.pow_le_pow_right (by omega) (Nat.le_of_not_lt outside)))
    exact absurd (last.symm.trans unset) (by decide)
  refine ⟨inside, ?_⟩
  have sorted : ∀ ntype, (maskItems low ntype).Pairwise (· < ·) := fun ntype =>
    List.Pairwise.filter _ List.pairwise_lt_range
  refine List.Pairwise.eq_of_mem_iff (sorted i) (List.pairwise_append.mpr
    ⟨sorted _, List.pairwise_singleton _ _, fun j member k single => ?_⟩) fun j => ?_
  · obtain ⟨-, bit⟩ := mem_maskItems.mp member
    obtain ⟨bit, other⟩ := (bits j).mp bit
    rw [List.mem_singleton.mp single]
    by_contra high
    have unset := above j (by omega)
    exact absurd (bit.symm.trans unset) (by decide)
  · rw [List.mem_append, List.mem_singleton, mem_maskItems, mem_maskItems, bits]
    constructor
    · rintro ⟨early, bit⟩
      by_cases here : j = hotNodeIndex i hot
      · exact .inr here
      · exact .inl ⟨early, bit, here⟩
    · rintro (⟨early, bit, -⟩ | rfl)
      · exact ⟨early, bit⟩
      · exact ⟨inside, last⟩

/-! ### Reading a path -/

namespace Gathered

variable {low : Nat} {items : List Int}

/-- What has been read of a path whose items are found, or are -1. -/
structure Reads (low : Nat) (items : List Int) (g g' : Gathered) : Prop where
  /-- The items that are not hot. -/
  origin : ∀ i, g'.origin i = if low ≤ i ∧ (i : Int) ∈ items then 1 else g.origin i
  has : g'.has = g.has + (items.filter fun item => (low : Int) ≤ item).length
  /-- The hot items. -/
  ntype : ∀ i, g'.ntype.testBit i = true ↔
    g.ntype.testBit i = true ∨ i < low ∧ (i : Int) ∈ items
  /-- The greatest item. -/
  max : g.maxItemno ≤ g'.maxItemno ∧ ∀ item ∈ items, (low : Int) ≤ item → item ≤ g'.maxItemno

/-- One item is read. -/
theorem reads_read {item : Int} (found : -1 ≤ item) (g : Gathered) :
    Reads low [item] g (read low g item) := by
  unfold read
  obtain rfl | ⟨k, rfl⟩ : item = -1 ∨ ∃ k : Nat, item = k := by
    rcases lt_or_ge item 0 with negative | positive
    · exact .inl (by omega)
    · exact .inr ⟨item.toNat, (Int.toNat_of_nonneg positive).symm⟩
  · rw [if_pos (by omega), if_neg (by simp)]
    refine ⟨fun i => ?_, ?_, fun i => ?_, le_rfl, fun item member cold => ?_⟩
    · rw [if_neg]
      simp
    · rw [List.filter_cons_of_neg (by simp; omega), List.filter_nil]
      rfl
    · simp
    · rw [List.mem_singleton.mp member] at cold
      omega
  by_cases hot : k < low
  · rw [if_pos (by omega), if_pos (by omega)]
    refine ⟨fun i => ?_, ?_, fun i => ?_, le_rfl, fun item member cold => ?_⟩
    · rw [if_neg]
      rintro ⟨cold, member⟩
      have same := List.mem_singleton.mp member
      omega
    · rw [List.filter_cons_of_neg (by simpa using hot), List.filter_nil]
      rfl
    · rw [Int.toNat_natCast, Nat.testBit_or, Nat.shiftLeft_eq, one_mul, Nat.testBit_two_pow]
      simp only [Bool.or_eq_true, decide_eq_true_eq, List.mem_singleton, Nat.cast_inj]
      exact or_congr Iff.rfl ⟨fun same => ⟨same ▸ hot, same.symm⟩, fun same => same.2.symm⟩
    · rw [List.mem_singleton.mp member] at cold
      omega
  · rw [if_neg (by omega)]
    refine ⟨fun i => ?_, ?_, fun i => ?_, ?_, fun item member cold => ?_⟩
    · dsimp only
      rw [Int.toNat_natCast, Function.update_apply]
      refine if_congr ?_ rfl rfl
      simp only [List.mem_singleton, Nat.cast_inj]
      exact ⟨fun same => ⟨by omega, same⟩, fun same => same.2⟩
    · rw [List.filter_cons_of_pos (by simpa using hot), List.filter_nil]
      rfl
    · simp only [List.mem_singleton, Nat.cast_inj]
      refine ⟨.inl, fun bit => bit.resolve_right ?_⟩
      omega
    · dsimp only
      split <;> omega
    · rw [List.mem_singleton.mp member]
      dsimp only
      split <;> omega

/-- The items of a path are read one after the other. -/
theorem foldl_read (found : ∀ item ∈ items, -1 ≤ item) (g : Gathered) :
    Reads low items g (items.foldl (read low) g) := by
  induction items generalizing g with
  | nil => exact ⟨fun i => by simp, rfl, fun i => by simp, le_rfl, fun item none => nomatch none⟩
  | cons head items ih =>
    rw [List.foldl_cons]
    obtain ⟨origin, has, ntype, max, above⟩ :=
      ih (fun item member => found item (List.mem_cons_of_mem _ member)) (read low g head)
    obtain ⟨origin', has', ntype', max', above'⟩ : Reads low [head] g (read low g head) :=
      reads_read (found head List.mem_cons_self) g
    refine ⟨fun i => ?_, ?_, fun i => ?_, max'.trans max, fun item member cold => ?_⟩
    · rw [origin, origin']
      by_cases last : (i : Int) ∈ items
      · by_cases cold : low ≤ i
        · simp [cold, last]
        · simp [cold]
      · simp [last]
    · rw [has, has', add_assoc, ← List.length_append, ← List.filter_append, List.singleton_append]
    · rw [ntype, ntype']
      simp only [List.mem_cons, List.not_mem_nil, or_false]
      tauto
    · rcases List.mem_cons.mp member with rfl | member
      · exact (above' item (List.mem_singleton_self item) cold).trans max
      · exact above item member cold

end Gathered

/-- `fill_count` lists the items that are set, from the least on, and clears them. -/
theorem Build.fillCount_spec {b : Build} (maxItemno : Int) {items : List Nat}
    (sorted : items.Pairwise (· < ·)) (set_ : ∀ i, b.scratch.origin i ≠ 0 ↔ i ∈ items)
    (range : ∀ i ∈ items, b.fptree.numHotItem ≤ i ∧ (i : Int) ≤ maxItemno) :
    (List.range items.length).map (b.fillCount maxItemno).scratch.compact =
      items.map Nat.cast ∧ ∀ i, (b.fillCount maxItemno).scratch.origin i = 0 := by
  have listed : (List.range' b.fptree.numHotItem
      ((maxItemno + 1).toNat - b.fptree.numHotItem)).filter
        (fun i => b.scratch.origin i ≠ 0) = items := by
    refine List.Pairwise.eq_of_mem_iff (List.Pairwise.filter _ List.pairwise_lt_range') sorted ?_
    intro i
    rw [List.mem_filter, List.mem_range'_1, decide_eq_true_iff, set_]
    refine ⟨fun member => member.2, fun member => ⟨?_, member⟩⟩
    have bounds := range i member
    omega
  unfold fillCount
  dsimp only
  rw [listed]
  constructor
  · refine List.ext_getElem (by simp) fun j early _ => ?_
    have inside : j < items.length := by simpa using early
    simp [inside]
  · intro i
    split
    · rfl
    · rename_i out
      by_contra some
      have bounds := range i ((set_ i).mp some)
      exact out (by omega)

namespace StoredTree

/-- The items of a conditional tree that are on a path. -/
def restricted (old : Nat → Nat) (itemno : Nat) (path : List Nat) : List Nat :=
  (List.range itemno).filter fun j => old j ∈ path

/-- The prefix path of a node, restricted to the items of a conditional tree. -/
def restrictedPath (tree : StoredTree) (old : Nat → Nat) (itemno : Nat) (node : PathNode) :
    List Int :=
  (restricted old itemno (tree.pathOf node)).map Nat.cast

/-- The restricted paths of some nodes, with their counts. -/
def restrictedWords (tree : StoredTree) (old : Nat → Nat) (itemno : Nat)
    (nodes : List PathNode) : List (List Int × Nat) :=
  nodes.map fun node => (tree.restrictedPath old itemno node, node.count)

/-- The items of a conditional tree from a number on that are on a path. -/
def cold (old : Nat → Nat) (low itemno : Nat) (path : List Nat) : List Nat :=
  (List.range' low (itemno - low)).filter fun j => old j ∈ path

/-- A path of the pattern base: the hot items first. -/
theorem restricted_eq {old : Nat → Nat} {low itemno : Nat} (most : low ≤ itemno)
    (path : List Nat) :
    restricted old itemno path =
      (List.range low).filter (fun j => old j ∈ path) ++ cold old low itemno path := by
  unfold restricted cold
  rw [← List.filter_append, List.range_eq_range', List.range_eq_range']
  have size : itemno = low + (itemno - low) := by omega
  conv_lhs => rw [size, ← List.range'_append_1, Nat.zero_add]

/-- The cold items of a path. -/
theorem mem_cold {old : Nat → Nat} {low itemno : Nat} {path : List Nat} {j : Nat}
    (most : low ≤ itemno) :
    j ∈ cold old low itemno path ↔ low ≤ j ∧ j < itemno ∧ old j ∈ path := by
  unfold cold
  rw [List.mem_filter, List.mem_range'_1, decide_eq_true_iff, Nat.add_sub_cancel' most, and_assoc]

/-- The cold items are in order. -/
theorem cold_sorted (old : Nat → Nat) (low itemno : Nat) (path : List Nat) :
    (cold old low itemno path).Pairwise (· < ·) := List.Pairwise.filter _ List.pairwise_lt_range'

variable {tree : StoredTree} {threshold : Int} {item : Nat} {b : Build} {old : Nat → Nat}
  {path : List Nat}

/-- An item of a path is found under its number in the conditional tree, or it is not frequent. -/
theorem Ordered.found (ordered : tree.Ordered threshold item b old) {i : Nat} (below : i < item)
    (some : 0 < tree.support item i) :
    (∃ j < b.fptree.itemno, old j = i ∧ b.scratch.globalOrderArray i = j) ∨
      b.scratch.globalOrderArray i = -1 := by
  by_cases often : threshold ≤ tree.support item i
  · obtain ⟨j, early, same⟩ := ordered.surj i below often
    exact .inl ⟨j, early, same, by rw [← same, ordered.order j early]⟩
  · exact .inr (ordered.rare i below (not_le.mp often) some)

/-- The items of a path under their numbers in the conditional tree. -/
theorem Ordered.mem_map (ordered : tree.Ordered threshold item b old)
    (on_path : ∀ i ∈ path, i < item ∧ 0 < tree.support item i) (j : Nat) :
    (j : Int) ∈ path.map b.scratch.globalOrderArray ↔ j < b.fptree.itemno ∧ old j ∈ path := by
  constructor
  · intro member
    obtain ⟨i, here, number⟩ := List.mem_map.mp member
    obtain ⟨below, some⟩ := on_path i here
    rcases ordered.found below some with ⟨j', early, same, number'⟩ | rare
    · obtain rfl : j = j' := by
        rw [number] at number'
        exact Nat.cast_inj.mp number'
      exact ⟨early, same ▸ here⟩
    · omega
  · rintro ⟨early, here⟩
    exact List.mem_map.mpr ⟨old j, here, ordered.order j early⟩

/-- As many items of a path are not hot as are listed. -/
theorem Ordered.length_cold (ordered : tree.Ordered threshold item b old)
    (on_path : ∀ i ∈ path, i < item ∧ 0 < tree.support item i) (nodup : path.Nodup) :
    ((path.map b.scratch.globalOrderArray).filter fun item =>
        (b.fptree.numHotItem : Int) ≤ item).length =
      (cold old b.fptree.numHotItem b.fptree.itemno path).length := by
  have cast : ((cold old b.fptree.numHotItem b.fptree.itemno path).map
      (Nat.cast : Nat → Int)).length = _ := List.length_map _
  rw [← cast]
  refine List.Perm.length_eq ((List.perm_ext_iff_of_nodup ?_ ?_).mpr fun number => ?_)
  · rw [List.filter_map]
    refine (nodup.filter _).map_on ?_
    intro i member i' member' same
    obtain ⟨here, positive⟩ := List.mem_filter.mp member
    obtain ⟨here', -⟩ := List.mem_filter.mp member'
    have found : (b.fptree.numHotItem : Int) ≤ b.scratch.globalOrderArray i :=
      of_decide_eq_true positive
    obtain ⟨below, some⟩ := on_path i here
    obtain ⟨below', some'⟩ := on_path i' here'
    rcases ordered.found below some with ⟨j, -, rfl, number⟩ | rare
    · rcases ordered.found below' some' with ⟨j', -, rfl, number'⟩ | rare
      · rw [number, number'] at same
        rw [Nat.cast_inj.mp same]
      · omega
    · omega
  · exact List.Nodup.map Nat.cast_injective ((cold_sorted old _ _ path).imp fun less => less.ne)
  · rw [List.mem_filter, decide_eq_true_iff]
    constructor
    · rintro ⟨member, above⟩
      obtain ⟨j, rfl⟩ : ∃ j : Nat, number = j :=
        ⟨number.toNat, (Int.toNat_of_nonneg (by omega)).symm⟩
      obtain ⟨early, here⟩ := (ordered.mem_map on_path j).mp member
      exact List.mem_map_of_mem ((mem_cold ordered.hot_le).mpr ⟨by omega, early, here⟩)
    · intro listed
      obtain ⟨j, member, rfl⟩ := List.mem_map.mp listed
      obtain ⟨low, early, here⟩ := (mem_cold ordered.hot_le).mp member
      exact ⟨(ordered.mem_map on_path j).mpr ⟨early, here⟩, by omega⟩

/-- What has been read of a path: the mask of its hot items, and its other items. -/
structure ReadsPath (old : Nat → Nat) (low itemno : Nat) (path : List Nat) (g : Gathered) :
    Prop where
  /-- The mask. -/
  small : g.ntype < 2 ^ low
  hot : maskItems low g.ntype = (List.range low).filter fun j => old j ∈ path
  /-- The items that are not hot. -/
  has : g.has = (cold old low itemno path).length
  set_ : ∀ i, g.origin i ≠ 0 ↔ i ∈ cold old low itemno path
  range : ∀ i ∈ cold old low itemno path, low ≤ i ∧ (i : Int) ≤ g.maxItemno

/-- The items of a path are read. -/
theorem Ordered.reads (ordered : tree.Ordered threshold item b old)
    (on_path : ∀ i ∈ path, i < item ∧ 0 < tree.support item i) (nodup : path.Nodup)
    (cleared : ∀ i, b.scratch.origin i = 0) :
    ReadsPath old b.fptree.numHotItem b.fptree.itemno path
      ((path.map b.scratch.globalOrderArray).foldl (Gathered.read b.fptree.numHotItem)
        ⟨b.scratch.origin, 0, 0, 0⟩) := by
  have found : ∀ number ∈ path.map b.scratch.globalOrderArray, -1 ≤ number := by
    intro number listed
    obtain ⟨i, here, rfl⟩ := List.mem_map.mp listed
    rcases ordered.found (on_path i here).1 (on_path i here).2 with ⟨j, -, -, number⟩ | rare
    · omega
    · omega
  have listed := ordered.mem_map on_path
  have length := ordered.length_cold on_path nodup
  have most := ordered.hot_le
  obtain ⟨origin, has, ntype, -, max⟩ : Gathered.Reads b.fptree.numHotItem _ _ _ :=
    Gathered.foldl_read found ⟨b.scratch.origin, 0, 0, 0⟩
  generalize (path.map b.scratch.globalOrderArray).foldl
    (Gathered.read b.fptree.numHotItem) ⟨b.scratch.origin, 0, 0, 0⟩ = g at *
  have bits : ∀ j, g.ntype.testBit j = true ↔ j < b.fptree.numHotItem ∧ old j ∈ path := by
    intro j
    rw [ntype, Nat.zero_testBit, listed]
    constructor
    · rintro (none | ⟨hot, -, here⟩)
      · exact nomatch none
      · exact ⟨hot, here⟩
    · rintro ⟨hot, here⟩
      exact .inr ⟨hot, hot.trans_le most, here⟩
  constructor
  · refine Nat.lt_pow_two_of_testBit _ fun j high => Bool.eq_false_iff.mpr fun bit => ?_
    exact absurd ((bits j).mp bit).1 (not_lt.mpr high)
  · refine List.filter_congr fun j early => Bool.eq_iff_iff.mpr ?_
    rw [bits, decide_eq_true_iff]
    exact and_iff_right (List.mem_range.mp early)
  · rw [has, length, Nat.zero_add]
  · intro i
    rw [mem_cold most, origin]
    dsimp only
    rw [cleared]
    simp only [← listed, ite_ne_right_iff, ne_eq, one_ne_zero, not_false_eq_true, and_true]
  · intro i member
    obtain ⟨low, early, here⟩ := (mem_cold most).mp member
    exact ⟨low, max i ((listed i).mpr ⟨early, here⟩) (Int.ofNat_le.mpr low)⟩

end StoredTree

/-! ### The trees of the masks -/

namespace Build

variable {low hot k : Nat} {b : Build} {word : Nat → Nat × List Int}
  {entries : List (Nat × List Int × Nat)} {words : List (List Int × Nat)}

/-- The masks with a node whose last hot item is an item. -/
def pending (low hot : Nat) (hashtable : Nat → Option Nat) (x : Nat) : Nat :=
  (List.range' 1 (2 ^ low - 1)).countP fun ntype =>
    (hashtable ntype).isSome && hotNodeIndex ntype hot == x

/-- Nothing is pending without roots. -/
theorem pending_eq_zero {hashtable : Nat → Option Nat}
    (missing : ∀ ntype, ntype ≠ 0 → hashtable ntype = none) (x : Nat) :
    pending low hot hashtable x = 0 := by
  unfold pending
  refine List.countP_eq_zero.mpr fun ntype member => ?_
  have positive := (List.mem_range'_1.mp member).1
  rw [missing ntype (by omega)]
  simp

/-- There is a tree for each mask with a node. -/
structure Planted (low hot : Nat) (b : Build) (word : Nat → Nat × List Int)
    (entries : List (Nat × List Int × Nat)) : Prop where
  /-- The nodes are those of the words that have been inserted. -/
  formed : b.fptree.arena.Formed word
  counts : b.fptree.arena.Counts word entries
  /-- The nodes of the masks are the roots. -/
  root : b.scratch.hashtable 0 = some 0
  roots : ∀ ntype r, b.scratch.hashtable ntype = some r →
    r < b.fptree.arena.next ∧ word r = (ntype, []) ∧
      (b.fptree.arena.node r).label = if ntype = 0 then -1 else (hotNodeIndex ntype hot : Int)
  rooted : ∀ a < b.fptree.arena.next, (b.scratch.hashtable (word a).1).isSome = true
  /-- A node of an item has been counted, or it is the node of a mask. -/
  names : ∀ x : Nat, b.fptree.arena.names.count (x : Int) =
    b.fptree.nodenum x + pending low hot b.scratch.hashtable x

/-- A root that is there is kept. -/
theorem makeRoot_of_some {ntype r : Nat} (found : b.scratch.hashtable ntype = some r) :
    b.makeRoot hot ntype = b := by
  unfold makeRoot
  rw [found]

/-- A root is made. -/
theorem makeRoot_of_none {ntype : Nat} (missing : b.scratch.hashtable ntype = none) :
    b.makeRoot hot ntype =
      { fptree :=
          { b.fptree with arena := b.fptree.arena.plant ⟨hotNodeIndex ntype hot, 0, []⟩ }
        scratch :=
          { b.scratch with
            hashtable :=
              Function.update b.scratch.hashtable ntype (some b.fptree.arena.next) } } := by
  unfold makeRoot
  rw [missing]

/-- The places in a list where a predicate holds, when it changes at one place. -/
theorem countP_change (p p' : Nat → Bool) {list : List Nat} (nodup : list.Nodup) {i : Nat}
    (member : i ∈ list) (same : ∀ j, j ≠ i → p' j = p j) :
    list.countP p' + (if p i = true then 1 else 0) =
      list.countP p + if p' i = true then 1 else 0 := by
  induction list with
  | nil => exact nomatch member
  | cons head list ih =>
    obtain ⟨fresh, nodup⟩ := List.nodup_cons.mp nodup
    rw [List.countP_cons, List.countP_cons]
    by_cases here : head = i
    · subst here
      have rest : list.countP p' = list.countP p := by
        refine List.countP_congr fun j inside => ?_
        rw [same j fun equal => fresh (equal ▸ inside)]
      rw [rest, add_right_comm]
    · rw [same head here]
      have inside := (List.mem_cons.mp member).resolve_left (Ne.symm here)
      have rest := ih nodup inside
      omega

/-- A mask gets a node, or loses it. -/
theorem pending_update (hot : Nat) {ntype : Nat} (some : ntype ≠ 0) (known : ntype < 2 ^ low)
    (hashtable : Nat → Option Nat) (r : Option Nat) (x : Nat) :
    pending low hot (Function.update hashtable ntype r) x +
        (if (hashtable ntype).isSome ∧ hotNodeIndex ntype hot = x then 1 else 0) =
      pending low hot hashtable x +
        if r.isSome ∧ hotNodeIndex ntype hot = x then 1 else 0 := by
  have member : ntype ∈ List.range' 1 (2 ^ low - 1) := by
    rw [List.mem_range'_1]
    omega
  have change := countP_change
    (fun ntype => (hashtable ntype).isSome && hotNodeIndex ntype hot == x)
    (fun ntype' =>
      (Function.update hashtable ntype r ntype').isSome && hotNodeIndex ntype' hot == x)
    List.nodup_range' member fun j other => by rw [Function.update_of_ne other]
  simp only [Function.update_self, Bool.and_eq_true, beq_iff_eq] at change
  exact change

/-- A mask gets a node. -/
theorem Planted.makeRoot (planted : Planted low hot b word entries) {ntype : Nat}
    (known : ntype < 2 ^ low) : ∃ word' r,
      Planted low hot (b.makeRoot hot ntype) word' entries ∧
      (b.makeRoot hot ntype).scratch.hashtable ntype = some r := by
  obtain ⟨formed, counts, root, roots, rooted, names⟩ := planted
  cases found : b.scratch.hashtable ntype with
  | some r =>
    rw [makeRoot_of_some found]
    exact ⟨word, r, ⟨formed, counts, root, roots, rooted, names⟩, found⟩
  | none =>
    have some_ : ntype ≠ 0 := by
      rintro rfl
      rw [root] at found
      exact nomatch found
    have fresh : ∀ c < b.fptree.arena.next, word c ≠ (ntype, []) := by
      intro c inside same
      have present := rooted c inside
      rw [same, found] at present
      exact nomatch present
    rw [makeRoot_of_none found]
    refine ⟨Function.update word b.fptree.arena.next (ntype, []), b.fptree.arena.next,
      ⟨formed.plant ntype _ rfl fresh, counts.plant ntype _, ?_, ?_, ?_, ?_⟩, ?_⟩
    · dsimp only
      rw [Function.update_of_ne some_.symm]
      exact root
    · intro m r here
      dsimp only at here ⊢
      by_cases same : m = ntype
      · rw [same, Function.update_self] at here
        obtain rfl := Option.some.inj here
        rw [Function.update_self, same]
        exact ⟨Nat.lt_succ_self _, rfl, by rw [Arena.plant_node_new, if_neg some_]⟩
      · rw [Function.update_of_ne same] at here
        obtain ⟨inside, path, label⟩ := roots m r here
        rw [Function.update_of_ne inside.ne]
        refine ⟨inside.trans (Nat.lt_succ_self _), path, ?_⟩
        rw [Arena.plant_node_of_lt _ inside]
        exact label
    · intro a bound
      dsimp only at bound ⊢
      rcases Nat.lt_succ_iff_lt_or_eq.mp bound with inside | rfl
      · rw [Function.update_of_ne inside.ne]
        have present := rooted a inside
        by_cases same : (word a).1 = ntype
        · rw [same, Function.update_self]
          rfl
        · rwa [Function.update_of_ne same]
      · rw [Function.update_self, Function.update_self]
        rfl
    · intro x
      dsimp only
      rw [Arena.names_plant, List.count_append, names x]
      have more := pending_update hot some_ known b.scratch.hashtable
        (some b.fptree.arena.next) x
      have label : ((hotNodeIndex ntype hot : Int) == (x : Int)) = (hotNodeIndex ntype hot == x) :=
        by simp
      rw [found] at more
      rw [List.count_singleton, label]
      by_cases here : hotNodeIndex ntype hot = x
      · simp [here] at more ⊢
        omega
      · simp [here] at more ⊢
        omega
    · exact Function.update_self _ _ _

/-- What is known of the table: it has the children of the nodes of the first masks, and its entries
are noted for the end. -/
structure Tabled (b : Build) : Prop where
  known : ∀ ntype < fastRightsibTableSize, ∀ x, b.scratch.fastRightsibTable ntype x =
    (b.scratch.hashtable ntype).bind fun r => b.fptree.arena.child r x
  noted : ∀ ntype x, (b.scratch.fastRightsibTable ntype x).isSome = true →
    (ntype, x) ∈ b.scratch.rightsibBackpatchStack

/-- A new node has no children yet. -/
theorem Tabled.makeRoot (tabled : b.Tabled) (planted : Planted low hot b word entries)
    (ntype : Nat) : (b.makeRoot hot ntype).Tabled := by
  cases found : b.scratch.hashtable ntype with
  | some r =>
    rw [makeRoot_of_some found]
    exact tabled
  | none =>
    rw [makeRoot_of_none found]
    refine ⟨fun m small x => ?_, tabled.noted⟩
    dsimp only
    rw [tabled.known m small x]
    obtain ⟨leaf, others⟩ := Arena.child_plant planted.formed.closed
      ⟨(hotNodeIndex ntype hot : Int), 0, []⟩ rfl x
    by_cases same : m = ntype
    · rw [same, Function.update_self, found, Option.bind_none, Option.bind_some, leaf]
    · rw [Function.update_of_ne same]
      refine Option.bind_congr fun r here => ?_
      rw [others r (planted.roots m r here).1]

/-- The trees after a word has been inserted into one of them. -/
theorem Planted.inserted {b' : Build} {word' : Nat → Nat × List Int}
    {entries' : List (Nat × List Int × Nat)} (planted : Planted low hot b word entries)
    {ntype r amount : Nat} {items rest : List Int}
    (inserted :
      Arena.Inserted b.fptree.arena b'.fptree.arena word word' entries' ntype items amount)
    (found : b.scratch.hashtable ntype = some r)
    (names : b'.fptree.arena.names = b.fptree.arena.names ++ rest)
    (nodenum : ∀ x, b'.fptree.nodenum x = b.fptree.nodenum x + rest.count x)
    (hashtable : b'.scratch.hashtable = b.scratch.hashtable) :
    Planted low hot b' word' (entries' ++ [(ntype, items, amount)]) := by
  refine ⟨inserted.formed, inserted.counts, hashtable ▸ planted.root, ?_, ?_, fun x => ?_⟩
  · intro m r' here
    rw [hashtable] at here
    obtain ⟨inside, path, label⟩ := planted.roots m r' here
    refine ⟨inside.trans_le inserted.grows, (inserted.old r' inside).trans path, ?_⟩
    rw [Arena.label_of_names ⟨rest, names.symm⟩ inside]
    exact label
  · intro a inside
    rw [hashtable]
    rcases Nat.lt_or_ge a b.fptree.arena.next with old | new
    · rw [inserted.old a old]
      exact planted.rooted a old
    · rw [(inserted.new a new inside).1, found]
      rfl
  · rw [names, List.count_append, planted.names x, nodenum, hashtable, Nat.add_right_comm]

/-- The table after a word has been inserted. -/
theorem Tabled.inserted {b' : Build} {word' : Nat → Nat × List Int}
    {entries' : List (Nat × List Int × Nat)} (tabled : b.Tabled)
    (planted : Planted low hot b word entries) {ntype r amount : Nat} {items : List Int}
    (inserted :
      Arena.Inserted b.fptree.arena b'.fptree.arena word word' entries' ntype items amount)
    (found : b.scratch.hashtable ntype = some r)
    (hashtable : b'.scratch.hashtable = b.scratch.hashtable)
    (others : ∀ ntype' x, ¬(ntype' = ntype ∧ items.head? = some x) →
      b'.scratch.fastRightsibTable ntype' x = b.scratch.fastRightsibTable ntype' x)
    (first : ntype < fastRightsibTableSize → ∀ x ∈ items.head?,
      b'.scratch.fastRightsibTable ntype x = b'.fptree.arena.child r x) :
    ∀ ntype' < fastRightsibTableSize, ∀ x, b'.scratch.fastRightsibTable ntype' x =
      (b'.scratch.hashtable ntype').bind fun r => b'.fptree.arena.child r x := by
  intro ntype' small x
  rw [hashtable]
  by_cases here : ntype' = ntype ∧ items.head? = some x
  · obtain ⟨rfl, head⟩ := here
    rw [found, Option.bind_some]
    exact first small x head
  · rw [others ntype' x here, tabled.known ntype' small x]
    refine Option.bind_congr fun r' here' => ?_
    obtain ⟨inside, path, -⟩ := planted.roots ntype' r' here'
    exact ((inserted.child planted.formed inside path x).2 here).symm

/-- One entry of the table changes. -/
theorem backpatch_table (ntype : Nat) (x : Int) (child : Nat) (b : Build) (ntype' : Nat) (y : Int) :
    (b.backpatch ntype x child).scratch.fastRightsibTable ntype' y =
      if ntype' = ntype ∧ y = x then some child
      else b.scratch.fastRightsibTable ntype' y := by
  unfold backpatch
  dsimp only
  by_cases first : ntype' = ntype
  · rw [first, Function.update_self, Function.update_apply]
    exact if_congr (by simp) rfl rfl
  · rw [Function.update_of_ne first, if_neg fun same => first same.1]

/-- `insert` changes the nodes and the table only. -/
structure Inserts (b b' : Build) : Prop where
  fptree : b'.fptree =
    { b.fptree with arena := b'.fptree.arena, nodenum := b'.fptree.nodenum }
  scratch : b'.scratch =
    { b.scratch with
      fastRightsibTable := b'.scratch.fastRightsibTable
      rightsibBackpatchStack := b'.scratch.rightsibBackpatchStack
      newDataNum := b'.scratch.newDataNum }

/-- `insert` puts a word into the tree of its mask. -/
theorem insert_spec {entries' : List (Nat × List Int × Nat)}
    (planted : Planted low hot b word entries) (tabled : b.Tabled)
    (counts : b.fptree.arena.Counts word entries') {ntype r current : Nat}
    (found : b.scratch.hashtable ntype = some r) {x : Int} {rest : List Int}
    (listed : (List.range current).map b.scratch.compact = x :: rest) (amount depth : Nat) :
    ∃ b' word', b.insert amount current ntype depth = some b' ∧ b.Inserts b' ∧ b'.Tabled ∧
      Planted low hot b' word' (entries' ++ [(ntype, x :: rest, amount)]) := by
  obtain ⟨inside, path, -⟩ := planted.roots ntype r found
  have closed := planted.formed.closed
  unfold insert
  rw [found, Option.map_some]
  dsimp only
  rw [listed]
  by_cases small : ntype < fastRightsibTableSize
  · rw [if_pos small]
    have entry := tabled.known ntype small x
    rw [found, Option.bind_some] at entry
    dsimp only
    cases known : b.scratch.fastRightsibTable ntype x with
    | none =>
      rw [known] at entry
      have missing : ∀ y ∈ (x :: rest).head?, b.fptree.arena.child r y = none := by
        intro y head
        obtain rfl : x = y := Option.some.inj head
        exact entry.symm
      obtain ⟨word', inserted, child⟩ :=
        planted.formed.hang_root counts inside path amount missing
      have set_ := backpatch_table ntype x b.fptree.arena.next
        (b.extend amount current depth (b.fptree.arena, r, x :: rest))
      refine ⟨_, word', rfl, ⟨rfl, rfl⟩, ⟨?_, ?_⟩, ?_⟩
      · refine tabled.inserted planted inserted found rfl (fun ntype' y other => ?_)
          (fun _ y head => ?_)
        · refine (set_ ntype' y).trans (if_neg fun same => other ⟨same.1, ?_⟩)
          rw [same.2]
          rfl
        · obtain rfl : x = y := Option.some.inj head
          exact (set_ ntype x).trans ((if_pos ⟨rfl, rfl⟩).trans (child x rfl).symm)
      · intro ntype' y present
        rw [set_ ntype' y] at present
        refine List.mem_append.mpr ?_
        split at present
        · rename_i same
          rw [same.1, same.2]
          exact .inr (List.mem_singleton_self _)
        · exact .inl (tabled.noted ntype' y present)
      · exact planted.inserted inserted found (Arena.names_hang inside _) (fun _ => rfl) rfl
    | some child =>
      rw [known] at entry
      obtain ⟨word', inserted⟩ := planted.formed.insert counts inside path amount (x :: rest)
      have first := (inserted.child planted.formed inside path x).1 child entry.symm
      rw [Arena.insert_cons entry.symm] at inserted first
      have below : child < b.fptree.arena.next :=
        closed r inside child (List.mem_of_find?_eq_some entry.symm)
      refine ⟨_, word', rfl, ⟨rfl, rfl⟩, ⟨?_, tabled.noted⟩, ?_⟩
      · refine tabled.inserted planted inserted found rfl (fun _ _ _ => rfl) (fun _ y head => ?_)
        obtain rfl : x = y := Option.some.inj head
        exact known.trans first.symm
      · refine planted.inserted inserted found ?_ (fun _ => rfl) rfl
        exact (Arena.names_insert (Arena.grows_addWeight closed).1 below rest).trans
          (congrArg (· ++ _) Arena.names_addWeight)
  · rw [if_neg small]
    obtain ⟨word', inserted⟩ := planted.formed.insert counts inside path amount (x :: rest)
    refine ⟨_, word', rfl, ⟨rfl, rfl⟩, ⟨?_, tabled.noted⟩, ?_⟩
    · exact tabled.inserted planted inserted found rfl (fun _ _ _ => rfl)
        (fun small' => absurd small' small)
    · exact planted.inserted inserted found (Arena.names_insert closed inside _) (fun _ => rfl) rfl

/-- Only the nodes and the table of the masks change for a new node. -/
theorem makeRoot_same (hot ntype : Nat) (b : Build) :
    (b.makeRoot hot ntype).fptree =
        { b.fptree with arena := (b.makeRoot hot ntype).fptree.arena } ∧
      (b.makeRoot hot ntype).scratch =
        { b.scratch with hashtable := (b.makeRoot hot ntype).scratch.hashtable } ∧
      ∀ other, other ≠ ntype →
        (b.makeRoot hot ntype).scratch.hashtable other = b.scratch.hashtable other := by
  unfold makeRoot
  split
  · exact ⟨rfl, rfl, fun _ _ => rfl⟩
  · exact ⟨rfl, rfl, fun other apart => Function.update_of_ne apart _ _⟩

/-- The word that an inserted word stands for, with the items of its mask, and its count. -/
def wholeWord (low : Nat) (entry : Nat × List Int × Nat) : List Int × Nat :=
  ((maskItems low entry.1).map Nat.cast ++ entry.2.1, entry.2.2)

/-- The trees of the masks up to `k`, when the others have been put below them. -/
structure Trees (low hot k : Nat) (b : Build) (word : Nat → Nat × List Int)
    (entries : List (Nat × List Int × Nat)) (words : List (List Int × Nat)) : Prop extends
    Planted low hot b word entries where
  /-- The masks that have nodes are those of the words. -/
  present : ∀ entry ∈ entries, (b.scratch.hashtable entry.1).isSome = true
  used : ∀ ntype, ntype ≠ 0 → (b.scratch.hashtable ntype).isSome = true →
    ∃ entry ∈ entries, entry.1 = ntype
  masks : ∀ entry ∈ entries, entry.1 < k
  /-- A word begins with an item that is not hot, or with the last one of a mask that has been put
  below another one. -/
  first : ∀ entry ∈ entries, ∀ x ∈ entry.2.1.head?,
    (low : Int) ≤ x ∨ ∃ j : Nat, x = j ∧ k ≤ entry.1 ^^^ (1 <<< j)
  /-- The counts of the masks. -/
  hotNodeCount : ∀ ntype, ntype ≠ 0 →
    b.scratch.hotNodeCount ntype = Arena.weightOf entries ntype []
  /-- The words with the items of their masks. -/
  whole : entries.map (wholeWord low) = words

/-- One more word has been inserted. -/
theorem Trees.append {b' : Build} {word' : Nat → Nat × List Int}
    (trees : Trees low hot k b word entries words) {ntype amount : Nat} {items : List Int}
    (planted : Planted low hot b' word' (entries ++ [(ntype, items, amount)]))
    (known : ntype < k) (cold : ∀ x ∈ items.head?, (low : Int) ≤ x)
    (here : (b'.scratch.hashtable ntype).isSome = true)
    (others : ∀ other, other ≠ ntype →
      b'.scratch.hashtable other = b.scratch.hashtable other)
    (counted : b'.scratch.hotNodeCount = Function.update b.scratch.hotNodeCount ntype
      (b.scratch.hotNodeCount ntype + amount)) :
    Trees low hot k b' word' (entries ++ [(ntype, items, amount)])
      (words ++ [wholeWord low (ntype, items, amount)]) := by
  refine ⟨planted, ?_, ?_, ?_, ?_, ?_, ?_⟩
  · intro entry member
    by_cases same : entry.1 = ntype
    · rw [same]
      exact here
    · rcases List.mem_append.mp member with known | new
      · rw [others _ same]
        exact trees.present entry known
      · exact absurd (congrArg Prod.fst (List.mem_singleton.mp new)) same
  · intro other some there
    by_cases same : other = ntype
    · exact ⟨_, List.mem_append_right _ (List.mem_singleton_self _), same.symm⟩
    · rw [others other same] at there
      obtain ⟨entry, known, same'⟩ := trees.used other some there
      exact ⟨entry, List.mem_append_left _ known, same'⟩
  · intro entry member
    rcases List.mem_append.mp member with known | new
    · exact trees.masks entry known
    · rw [List.mem_singleton.mp new]
      exact known
  · intro entry member x head
    rcases List.mem_append.mp member with known | new
    · exact trees.first entry known x head
    · rw [List.mem_singleton.mp new] at head
      exact .inl (cold x head)
  · intro other some
    rw [counted, Arena.weightOf_concat, Function.update_apply]
    split
    · rename_i same
      subst same
      simp [trees.hotNodeCount other some]
    · rename_i apart
      simp [trees.hotNodeCount other some, Ne.symm apart]
  · rw [List.map_append, trees.whole, List.map_singleton]

/-- The trees depend on the nodes and on the table of the masks only. -/
theorem Planted.congr {b' : Build} (planted : Planted low hot b word entries)
    (fptree : b'.fptree = b.fptree) (hashtable : b'.scratch.hashtable = b.scratch.hashtable) :
    Planted low hot b' word entries := by
  obtain ⟨formed, counts, root, roots, rooted, names⟩ := planted
  constructor
  all_goals simp only [fptree, hashtable]
  all_goals assumption

/-- The tables are known by the tree and the scratch arrays alone. -/
theorem Tabled.congr {b' : Build} (tabled : b.Tabled) (fptree : b'.fptree = b.fptree)
    (hashtable : b'.scratch.hashtable = b.scratch.hashtable)
    (table : b'.scratch.fastRightsibTable = b.scratch.fastRightsibTable)
    (stack : b'.scratch.rightsibBackpatchStack = b.scratch.rightsibBackpatchStack) : b'.Tabled := by
  obtain ⟨known, noted⟩ := tabled
  constructor
  all_goals simp only [fptree, hashtable, table, stack]
  all_goals assumption

/-- What does not change while a tree is built. -/
structure Kept (b b' : Build) : Prop where
  fptree : b'.fptree =
    { b.fptree with arena := b'.fptree.arena, nodenum := b'.fptree.nodenum }
  order : b'.scratch.globalOrderArray = b.scratch.globalOrderArray
  supp : b'.scratch.supp = b.scratch.supp

/-- What is kept twice is kept. -/
theorem Kept.trans {b' b'' : Build} (first : b.Kept b') (second : b'.Kept b'') : b.Kept b'' := by
  refine ⟨?_, second.order.trans first.order, second.supp.trans first.supp⟩
  rw [second.fptree, first.fptree]

end Build

namespace StoredTree

variable {tree : StoredTree} {threshold : Int} {item : Nat} {b b' : Build} {old : Nat → Nat}

/-- The order of the items does not change. -/
theorem Ordered.kept (ordered : tree.Ordered threshold item b old) (kept : b.Kept b') :
    tree.Ordered threshold item b' old := by
  obtain ⟨⟨frequent, inj, surj, table, count, falling⟩, order, rare, hot_le, hot_first⟩ := ordered
  obtain ⟨fptree, order', -⟩ := kept
  have itemno : b'.fptree.itemno = b.fptree.itemno := by rw [fptree]
  have table' : b'.fptree.table = b.fptree.table := by rw [fptree]
  have count' : b'.fptree.count = b.fptree.count := by rw [fptree]
  have hot' : b'.fptree.numHotItem = b.fptree.numHotItem := by rw [fptree]
  refine ⟨⟨?_, ?_, ?_, ?_, ?_, ?_⟩, ?_, ?_, ?_, ?_⟩
  all_goals simp only [itemno, table', count', hot', order']
  all_goals assumption

/-- The first loop of `FPArray_scan2_DB` puts the items of a path into the tree of their mask. -/
theorem Ordered.scanNode (ordered : tree.Ordered threshold item b old)
    (known : item < tree.itemno) {node : PathNode} (member : node ∈ tree.nodeArrayList item)
    {word : Nat → Nat × List Int} {entries : List (Nat × List Int × Nat)}
    {words : List (List Int × Nat)}
    (trees : Build.Trees b.fptree.numHotItem tree.firstHotItem (2 ^ b.fptree.numHotItem) b word
      entries words)
    (tabled : b.Tabled) (cleared : ∀ i, b.scratch.origin i = 0) :
    ∃ b' word' entries', Build.scanNode tree b node = some b' ∧ b.Kept b' ∧
      Build.Trees b.fptree.numHotItem tree.firstHotItem (2 ^ b.fptree.numHotItem) b' word' entries'
        (words ++ [(tree.restrictedPath old b.fptree.itemno node, node.count)]) ∧
      b'.Tabled ∧ ∀ i, b'.scratch.origin i = 0 := by
  obtain ⟨read, nodup, below⟩ := pathOf_spec known member
  have on_path : ∀ i ∈ tree.pathOf node, i < item ∧ 0 < tree.support item i :=
    fun i here => ⟨below i here, support_pos known member here⟩
  obtain ⟨small, hot, has, set_, range⟩ := ordered.reads on_path nodup cleared
  unfold Build.scanNode
  rw [read, Option.bind_eq_bind, Option.bind_some]
  dsimp only
  generalize ((tree.pathOf node).map b.scratch.globalOrderArray).foldl
    (Gathered.read b.fptree.numHotItem) ⟨b.scratch.origin, 0, 0, 0⟩ = g
    at small hot has set_ range ⊢
  have whole : Build.wholeWord b.fptree.numHotItem (g.ntype,
      (cold old b.fptree.numHotItem b.fptree.itemno (tree.pathOf node)).map Nat.cast,
        node.count) =
      (tree.restrictedPath old b.fptree.itemno node, node.count) := by
    unfold Build.wholeWord restrictedPath
    dsimp only
    rw [hot, restricted_eq ordered.hot_le, List.map_append]
  have head : ∀ x ∈ ((cold old b.fptree.numHotItem b.fptree.itemno
      (tree.pathOf node)).map (Nat.cast : Nat → Int)).head?, (b.fptree.numHotItem : Int) ≤ x := by
    intro x first
    obtain ⟨i, member, rfl⟩ := List.mem_map.mp (List.mem_of_mem_head? first)
    exact Int.ofNat_le.mpr (range i member).1
  have sorted := cold_sorted old b.fptree.numHotItem b.fptree.itemno (tree.pathOf node)
  rw [← whole]
  generalize cold old b.fptree.numHotItem b.fptree.itemno (tree.pathOf node) = items at *
  obtain ⟨b₁, begun⟩ : ∃ b₁ : Build, b₁ = { b with
      scratch := { b.scratch with
        origin := g.origin
        hotNodeCount := Function.update b.scratch.hotNodeCount g.ntype
          (b.scratch.hotNodeCount g.ntype + node.count) } } := ⟨_, rfl⟩
  rw [← begun]
  have planted₁ : b₁.Planted b.fptree.numHotItem tree.firstHotItem word entries :=
    trees.toPlanted.congr (by rw [begun]) (by rw [begun])
  have tabled₁ : b₁.Tabled :=
    tabled.congr (by rw [begun]) (by rw [begun]) (by rw [begun]) (by rw [begun])
  obtain ⟨word₂, r, planted₂, found⟩ := planted₁.makeRoot small
  have tabled₂ := tabled₁.makeRoot planted₁ g.ntype
  obtain ⟨fptree₂, scratch₂, others⟩ := Build.makeRoot_same tree.firstHotItem g.ntype b₁
  generalize b₁.makeRoot tree.firstHotItem g.ntype = b₂ at *
  have kept₂ : b.Kept b₂ := by
    refine ⟨?_, ?_, ?_⟩
    · rw [fptree₂, begun]
    · rw [scratch₂, begun]
    · rw [scratch₂, begun]
  have origin₂ : b₂.scratch.origin = g.origin := by rw [scratch₂, begun]
  have hot₂ : b₂.fptree.numHotItem = b.fptree.numHotItem := by rw [fptree₂, begun]
  have count₂ : b₂.scratch.hotNodeCount = Function.update b.scratch.hotNodeCount g.ntype
      (b.scratch.hotNodeCount g.ntype + node.count) := by rw [scratch₂, begun]
  have others₂ : ∀ other, other ≠ g.ntype →
      b₂.scratch.hashtable other = b.scratch.hashtable other := by
    intro other apart
    rw [others other apart, begun]
  have here : (b₂.scratch.hashtable g.ntype).isSome = true := by rw [found]; rfl
  by_cases some : 0 < g.has
  · rw [if_pos some]
    obtain ⟨x, rest, long⟩ : ∃ x rest, items.map (Nat.cast : Nat → Int) = x :: rest := by
      refine List.exists_cons_of_ne_nil fun none => ?_
      rw [List.map_eq_nil_iff.mp none, List.length_nil] at has
      omega
    obtain ⟨listed, clear⟩ := Build.fillCount_spec (b := b₂) g.maxItemno sorted
      (fun i => by rw [origin₂]; exact set_ i) (by rw [hot₂]; exact range)
    have planted₃ : (b₂.fillCount g.maxItemno).Planted b.fptree.numHotItem tree.firstHotItem word₂
        entries := planted₂.congr rfl rfl
    rw [← has, long] at listed
    obtain ⟨b', word', result, inserts, tabled', planted'⟩ := Build.insert_spec planted₃
      (tabled₂.congr rfl rfl rfl rfl) planted₂.counts found listed node.count
      (hotNodeDepth g.ntype tree.firstHotItem)
    have table' : b'.scratch.hashtable = b₂.scratch.hashtable := by
      rw [inserts.scratch]
      rfl
    rw [long] at head ⊢
    refine ⟨b', word', _, result, ?_, trees.append planted' small head ?_ ?_ ?_, tabled', ?_⟩
    · refine kept₂.trans ⟨?_, ?_, ?_⟩
      · rw [inserts.fptree]
        rfl
      · rw [inserts.scratch]
        rfl
      · rw [inserts.scratch]
        rfl
    · rw [table']
      exact here
    · rw [table']
      exact others₂
    · rw [← count₂, inserts.scratch]
      rfl
    · rw [inserts.scratch]
      exact clear
  · rw [if_neg some]
    obtain rfl : items = [] := List.length_eq_zero_iff.mp (by omega)
    have planted' : b₂.Planted b.fptree.numHotItem tree.firstHotItem word₂
        (entries ++ [(g.ntype, [], node.count)]) :=
      { planted₂ with counts := Arena.counts_begin planted₂.counts }
    refine ⟨b₂, word₂, _, rfl, kept₂, trees.append planted' small head here others₂ count₂,
      tabled₂, fun i => ?_⟩
    rw [origin₂]
    by_contra positive
    exact nomatch (set_ i).mp positive

/-- The first loop of `FPArray_scan2_DB` puts all paths into the trees of their masks. -/
theorem Ordered.foldlM_scanNode (ordered : tree.Ordered threshold item b old)
    (known : item < tree.itemno) {nodes : List PathNode} (part : nodes ⊆ tree.nodeArrayList item)
    {word : Nat → Nat × List Int} {entries : List (Nat × List Int × Nat)}
    {words : List (List Int × Nat)}
    (trees : Build.Trees b.fptree.numHotItem tree.firstHotItem (2 ^ b.fptree.numHotItem) b word
      entries words)
    (tabled : b.Tabled) (cleared : ∀ i, b.scratch.origin i = 0) :
    ∃ b' word' entries', nodes.foldlM (Build.scanNode tree) b = some b' ∧ b.Kept b' ∧
      Build.Trees b.fptree.numHotItem tree.firstHotItem (2 ^ b.fptree.numHotItem) b' word' entries'
        (words ++ tree.restrictedWords old b.fptree.itemno nodes) ∧
      b'.Tabled ∧ ∀ i, b'.scratch.origin i = 0 := by
  induction nodes generalizing b word entries words with
  | nil =>
    refine ⟨b, word, entries, rfl, ⟨rfl, rfl, rfl⟩, ?_, tabled, cleared⟩
    unfold restrictedWords
    rwa [List.map_nil, List.append_nil]
  | cons node nodes ih =>
    obtain ⟨here, part⟩ := List.cons_subset.mp part
    obtain ⟨b₁, word₁, entries₁, first, kept₁, trees₁, tabled₁, cleared₁⟩ :=
      ordered.scanNode known here trees tabled cleared
    have itemno : b₁.fptree.itemno = b.fptree.itemno := by rw [kept₁.fptree]
    have hot : b₁.fptree.numHotItem = b.fptree.numHotItem := by rw [kept₁.fptree]
    rw [← hot] at trees₁
    obtain ⟨b', word', entries', rest, kept', trees', tabled', cleared'⟩ :=
      ih (ordered.kept kept₁) part trees₁ tabled₁ cleared₁
    refine ⟨b', word', entries', ?_, kept₁.trans kept', ?_, tabled', cleared'⟩
    · rw [List.foldlM_cons, first]
      exact rest
    · rw [hot, itemno, List.append_assoc] at trees'
      exact trees'

end StoredTree

end P3arsec.Freqmine
