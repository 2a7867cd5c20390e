import P3arsec.Freqmine.ConditionalScan

/-!
# The conditional tree of an item

When all paths have been read, the nodes of the masks are put below each other, from the greatest
mask down: each goes below the node of the mask without its last hot item, with the tree that it
has. A word of the tree of a mask gets the hot item in front then, so that with the items of its
mask it is the same word as before. In the end there is one tree: that of the restricted paths, with
their counts. The arrays of the thread are cleared, so that the next tree can be built with them.
-/

namespace P3arsec.Freqmine

open P3arsec.Lib

/-! ### The masks below each other -/

namespace Build

variable {low hot i : Nat} {b : Build} {word : Nat → Nat × List Int}
  {entries : List (Nat × List Int × Nat)} {words : List (List Int × Nat)}

/-- A word that goes below another mask stands for the same items. -/
theorem wholeWord_below (positive : 0 < i) (known : i < 2 ^ low) (most : low ≤ hot)
    (entry : Nat × List Int × Nat) :
    wholeWord low (Arena.entryBelow i (i ^^^ (1 <<< hotNodeIndex i hot))
      (hotNodeIndex i hot : Int) entry) = wholeWord low entry := by
  unfold wholeWord Arena.entryBelow
  split
  · rename_i here
    dsimp only
    rw [here, (maskItems_parent positive known most).2, List.map_append, List.map_singleton,
      List.append_assoc]
    rfl
  · rfl

/-- There is nothing to do for a mask without a node. -/
theorem Trees.skip (trees : Trees low hot (i + 1) b word entries words)
    (missing : b.scratch.hashtable i = none) : Trees low hot i b word entries words := by
  refine { trees with masks := fun entry member => ?_, first := fun entry member x head => ?_ }
  · have below := trees.masks entry member
    have other : entry.1 ≠ i := by
      intro same
      have present := trees.present entry member
      rw [same, missing] at present
      exact nomatch present
    omega
  · rcases trees.first entry member x head with cold | ⟨j, same, later⟩
    · exact .inl cold
    · exact .inr ⟨j, same, by omega⟩

/-- No word of the mask without its last hot item begins with that item before. -/
theorem Trees.graftable (trees : Trees low hot (i + 1) b word entries words) (positive : 0 < i)
    (known : i < 2 ^ low) (most : low ≤ hot) {b₁ : Build} {word₁ : Nat → Nat × List Int}
    (planted : Planted low hot b₁ word₁ entries) {r current : Nat}
    (found : b₁.scratch.hashtable (i ^^^ (1 <<< hotNodeIndex i hot)) = some r)
    (here : b₁.scratch.hashtable i = some current) :
    b₁.fptree.arena.Graftable word₁ r current i (i ^^^ (1 <<< hotNodeIndex i hot))
      (hotNodeIndex i hot : Int) := by
  have known' : i < 2 ^ hot := known.trans_le (Nat.pow_le_pow_right (by omega) most)
  have smaller := (parent_spec positive known').1
  have inside := (maskItems_parent positive known most).1
  obtain ⟨left, leftWord, -⟩ := planted.roots _ r found
  obtain ⟨right, rightWord, label⟩ := planted.roots i current here
  refine ⟨planted.formed, left, leftWord, right, rightWord,
    label.trans (if_neg positive.ne'), smaller.ne', ?_⟩
  intro c below same
  obtain ⟨entry, member, mask, begins⟩ := planted.counts.sound c below (by rw [same]; simp)
  rw [same] at mask begins
  obtain ⟨tail, long⟩ := begins
  have head : entry.2.1.head? = some (hotNodeIndex i hot : Int) := by
    rw [← long]
    rfl
  rcases trees.first entry member _ head with cold | ⟨j, equal, later⟩
  · omega
  · obtain rfl : hotNodeIndex i hot = j := Nat.cast_inj.mp equal
    rw [mask, Nat.xor_assoc, Nat.xor_self, Nat.xor_zero] at later
    omega

/-- The table of the masks when one has been put below another one. -/
theorem isSome_update {hashtable hashtable' : Nat → Option Nat} {p r : Nat}
    (found : hashtable' p = some r)
    (others : ∀ ntype, ntype ≠ p → hashtable' ntype = hashtable ntype) (ntype : Nat)
    (other : ntype ≠ i) (there : ntype = p ∨ (hashtable ntype).isSome = true) :
    (Function.update hashtable' i none ntype).isSome = true := by
  rw [Function.update_of_ne other]
  by_cases same : ntype = p
  · rw [same, found]
    rfl
  · rw [others ntype same]
    exact there.resolve_left same

/-- The trees after one has been put below another one. -/
theorem Planted.grafted {b' : Build} {p r current : Nat} (planted : Planted low hot b word entries)
    (positive : 0 < i) (known : i < 2 ^ low)
    (graftable : b.fptree.arena.Graftable word r current i p (hotNodeIndex i hot : Int))
    (found : b.scratch.hashtable p = some r) (here : b.scratch.hashtable i = some current)
    (used : ∃ entry ∈ entries, entry.1 = i)
    (arena : b'.fptree.arena =
      b.fptree.arena.graft r current (Arena.weightOf entries i []))
    (nodenum : b'.fptree.nodenum = Function.update b.fptree.nodenum (hotNodeIndex i hot)
      (b.fptree.nodenum (hotNodeIndex i hot) + 1))
    (hashtable : b'.scratch.hashtable = Function.update b.scratch.hashtable i none) :
    Planted low hot b' (fun c => Arena.below i p (hotNodeIndex i hot : Int) (word c))
      (entries.map (Arena.entryBelow i p (hotNodeIndex i hot : Int))) := by
  have there := isSome_update (i := i) found fun _ _ => rfl
  refine ⟨?_, ?_, ?_, ?_, ?_, ?_⟩
  · rw [arena]
    exact graftable.graft _
  · rw [arena]
    exact graftable.counts planted.counts used
  · rw [hashtable, Function.update_of_ne positive.ne]
    exact planted.root
  · intro ntype r' listed
    rw [hashtable, Function.update_apply] at listed
    split at listed
    · exact nomatch listed
    · rename_i other
      obtain ⟨inside, path, label⟩ := planted.roots ntype r' listed
      refine ⟨?_, ?_, ?_⟩
      · rw [arena]
        exact inside
      · rw [path]
        exact if_neg other
      · rw [arena, Arena.graft_label]
        exact label
  · intro a inside
    rw [arena] at inside
    rw [hashtable]
    unfold Arena.below
    split
    · exact there _ graftable.different.symm (.inl rfl)
    · rename_i other
      exact there _ other (.inr (planted.rooted a inside))
  · intro x
    rw [arena, nodenum, hashtable, Arena.names_graft, planted.names x]
    have less := pending_update hot positive.ne' known b.scratch.hashtable none x
    rw [here] at less
    simp only [Option.isSome_some, true_and, Option.isSome_none, Bool.false_eq_true, false_and,
      if_false, Nat.add_zero] at less
    rw [Function.update_apply]
    simp only [Nat.cast_inj]
    by_cases same : hotNodeIndex i hot = x
    · rw [if_pos same] at less
      rw [if_pos same.symm, same]
      omega
    · rw [if_neg same] at less
      rw [if_neg (Ne.symm same)]
      omega

/-- The tree of a mask is put below the tree of the mask without its last hot item. -/
theorem Trees.step (trees : Trees low hot (i + 1) b word entries words) (positive : 0 < i)
    (known : i < 2 ^ low) (most : low ≤ hot) :
    ∃ word' entries', Trees low hot i (b.link hot i) word' entries' words := by
  cases here : b.scratch.hashtable i with
  | none =>
    have same : b.link hot i = b := by
      unfold link
      rw [here]
    rw [same]
    exact ⟨word, entries, trees.skip here⟩
  | some current =>
    have known' : i < 2 ^ hot := known.trans_le (Nat.pow_le_pow_right (by omega) most)
    have smaller := (parent_spec positive known').1
    have used := trees.used i positive.ne' (by rw [here]; rfl)
    obtain ⟨word₁, r, planted, found⟩ := trees.toPlanted.makeRoot (smaller.trans known)
    obtain ⟨-, scratch, others⟩ := makeRoot_same hot (i ^^^ (1 <<< hotNodeIndex i hot)) b
    have here₁ := (others i smaller.ne').trans here
    have graftable := trees.graftable positive known most planted found here₁
    unfold link
    rw [here]
    dsimp only
    rw [found]
    dsimp only
    rw [trees.hotNodeCount i positive.ne']
    generalize place : i ^^^ (1 <<< hotNodeIndex i hot) = p at *
    generalize b.makeRoot hot p = b₁ at *
    have count : b₁.scratch.hotNodeCount = b.scratch.hotNodeCount := by rw [scratch]
    have there := isSome_update (i := i) found others
    refine ⟨_, _, planted.grafted positive known graftable found here₁ used rfl rfl rfl,
      ?_, ?_, ?_, ?_, ?_, ?_⟩
    · intro entry' member'
      obtain ⟨entry, member, rfl⟩ := List.mem_map.mp member'
      dsimp only
      unfold Arena.entryBelow
      split
      · exact there _ smaller.ne (.inl rfl)
      · rename_i other
        exact there _ other (.inr (trees.present entry member))
    · intro ntype some listed
      dsimp only at listed
      rw [Function.update_apply] at listed
      split at listed
      · exact nomatch listed
      rename_i other
      by_cases parent : ntype = p
      · obtain ⟨entry, member, same⟩ := used
        refine ⟨_, List.mem_map_of_mem member, ?_⟩
        unfold Arena.entryBelow
        rw [if_pos same, parent]
      · rw [others ntype parent] at listed
        obtain ⟨entry, member, same⟩ := trees.used ntype some listed
        refine ⟨_, List.mem_map_of_mem member, ?_⟩
        unfold Arena.entryBelow
        rw [if_neg (same ▸ other), same]
    · intro entry' member'
      obtain ⟨entry, member, rfl⟩ := List.mem_map.mp member'
      unfold Arena.entryBelow
      have below := trees.masks entry member
      split
      · exact smaller
      · omega
    · intro entry' member' x head
      obtain ⟨entry, member, rfl⟩ := List.mem_map.mp member'
      unfold Arena.entryBelow at head ⊢
      split at head
      · -- the word begins with the item that its mask has lost
        rename_i same
        rw [if_pos same]
        obtain rfl : (hotNodeIndex i hot : Int) = x := Option.some.inj head
        refine .inr ⟨hotNodeIndex i hot, rfl, ?_⟩
        dsimp only
        rw [← place, Nat.xor_assoc, Nat.xor_self, Nat.xor_zero]
      · rename_i other
        rw [if_neg other]
        rcases trees.first entry member x head with cold | ⟨j, equal, later⟩
        · exact .inl cold
        · exact .inr ⟨j, equal, by omega⟩
    · intro ntype some
      dsimp only
      rw [count, Arena.weightOf_nil_below smaller.ne', Function.update_apply]
      split
      · rfl
      rw [Function.update_apply]
      split
      · rename_i parent
        rw [trees.hotNodeCount p (parent ▸ some)]
      · exact trees.hotNodeCount ntype some
    · rw [List.map_map, ← trees.whole]
      refine List.map_congr_left fun entry _ => ?_
      have same := wholeWord_below positive known most entry
      rw [place] at same
      exact same

/-- All masks are put below each other, from the greatest one on. -/
theorem Trees.steps (most : low ≤ hot) {n : Nat} (known : n < 2 ^ low)
    (trees : Trees low hot (n + 1) b word entries words) : ∃ word' entries',
      Trees low hot 1 ((List.range' 1 n).reverse.foldl (link hot) b) word' entries' words := by
  induction n generalizing b word entries with
  | zero => exact ⟨word, entries, trees⟩
  | succ n ih =>
    rw [List.range'_1_concat, List.reverse_append, List.foldl_append, Nat.add_comm 1 n]
    obtain ⟨word', entries', trees'⟩ := trees.step (Nat.succ_pos n) known most
    exact ih (Nat.lt_of_succ_lt known) trees'

/-- What the second loop of `FPArray_scan2_DB` leaves as it is. -/
structure Links (b b' : Build) : Prop where
  kept : b.Kept b'
  origin : b'.scratch.origin = b.scratch.origin
  table : b'.scratch.fastRightsibTable = b.scratch.fastRightsibTable
  stack : b'.scratch.rightsibBackpatchStack = b.scratch.rightsibBackpatchStack

/-- A root is linked to its parent. -/
theorem links_link (hot i : Nat) (b : Build) : b.Links (b.link hot i) := by
  have unchanged : b.Links b := ⟨⟨rfl, rfl, rfl⟩, rfl, rfl, rfl⟩
  unfold link
  split
  · exact unchanged
  · rename_i current found
    obtain ⟨fptree, scratch, -⟩ := makeRoot_same hot (i ^^^ (1 <<< hotNodeIndex i hot)) b
    dsimp only
    generalize b.makeRoot hot (i ^^^ (1 <<< hotNodeIndex i hot)) = b₁ at *
    have made : b.Links b₁ := by
      refine ⟨⟨?_, ?_, ?_⟩, ?_, ?_, ?_⟩
      · rw [fptree]
      all_goals rw [scratch]
    split
    · exact made
    · refine ⟨⟨?_, made.kept.order, made.kept.supp⟩, made.origin, made.table, made.stack⟩
      dsimp only
      rw [fptree]

/-- So are the roots of a loop. -/
theorem links_foldl (hot : Nat) (masks : List Nat) (b : Build) :
    b.Links (masks.foldl (link hot) b) := by
  induction masks generalizing b with
  | nil => exact ⟨⟨rfl, rfl, rfl⟩, rfl, rfl, rfl⟩
  | cons i masks ih =>
    have first := links_link hot i b
    have rest := ih (b.link hot i)
    exact ⟨first.kept.trans rest.kept, rest.origin.trans first.origin,
      rest.table.trans first.table, rest.stack.trans first.stack⟩

/-- There is no tree but that of the mask 0 at the end. -/
theorem Trees.hashtable_eq_none (trees : Trees low hot 1 b word entries words) {ntype : Nat}
    (some : ntype ≠ 0) : b.scratch.hashtable ntype = none := by
  by_contra present
  obtain ⟨entry, member, same⟩ := trees.used ntype some (Option.isSome_iff_ne_none.mpr present)
  have below := trees.masks entry member
  omega

/-- The words at the end are the whole words. -/
theorem Trees.entries_eq (trees : Trees low hot 1 b word entries words) :
    entries = words.map fun entry => (0, entry.1, entry.2) := by
  have nothing : maskItems low 0 = [] := by
    unfold maskItems
    simp
  rw [← trees.whole, List.map_map]
  refine (List.map_id entries).symm.trans (List.map_congr_left fun entry member => ?_)
  have first : entry.1 = 0 := Nat.lt_one_iff.mp (trees.masks entry member)
  unfold wholeWord
  dsimp only [Function.comp]
  rw [first, nothing, ← first]
  rfl

/-- A tree with its root only. -/
theorem Begun.trees (begun : b.Begun) (low hot : Nat) :
    Trees low hot (2 ^ low) b (fun _ => (0, [])) [] [] := by
  obtain ⟨arena, nodenum, root, stack, cleared⟩ := begun
  have only : ∀ ntype r, b.scratch.hashtable ntype = some r → ntype = 0 ∧ r = 0 := by
    intro ntype r found
    by_cases zero : ntype = 0
    · rw [zero, root] at found
      exact ⟨zero, (Option.some.inj found).symm⟩
    · rw [cleared.hashtable ntype zero] at found
      exact nomatch found
  refine ⟨⟨?_, ?_, root, ?_, ?_, ?_⟩, ?_, ?_, ?_, ?_, ?_, rfl⟩
  · rw [arena]
    constructor
    · intro a below c member
      exact nomatch member
    · exact fun _ _ => List.nodup_nil
    · intro a below c below' _
      have first : a < 1 := below
      have second : c < 1 := below'
      omega
    · intro c _ w x path
      simp at path
  · constructor
    · exact fun _ _ some => absurd rfl some
    · exact fun _ none => nomatch none
    · exact fun _ _ some => absurd rfl some
  · intro ntype r found
    obtain ⟨rfl, rfl⟩ := only ntype r found
    rw [arena]
    exact ⟨Nat.one_pos, rfl, (if_pos rfl).symm⟩
  · intro a _
    rw [root]
    rfl
  · intro x
    rw [arena, nodenum, Nat.zero_add]
    rw [pending_eq_zero cleared.hashtable]
    unfold Arena.names
    simp
  · exact fun _ none => nomatch none
  · intro ntype some present
    rw [cleared.hashtable ntype some] at present
    exact nomatch present
  · exact fun _ none => nomatch none
  · exact fun _ none => nomatch none
  · intro ntype some
    rw [cleared.hotNodeCount ntype some]
    rfl

/-- A build that has begun is tabled. -/
theorem Begun.tabled (begun : b.Begun) : b.Tabled := by
  constructor
  · intro ntype _ x
    rw [begun.cleared.fastRightsibTable ntype x]
    by_cases zero : ntype = 0
    · rw [zero, begun.root, begun.arena]
      rfl
    · rw [begun.cleared.hashtable ntype zero]
      rfl
  · intro ntype x present
    rw [begun.cleared.fastRightsibTable ntype x] at present
    exact nomatch present

/-- No count of a mask is left at the end. -/
theorem Trees.hotNodeCount_eq_zero (trees : Trees low hot 1 b word entries words) {ntype : Nat}
    (some : ntype ≠ 0) : b.scratch.hotNodeCount ntype = 0 := by
  rw [trees.hotNodeCount ntype some]
  unfold Arena.weightOf
  refine List.sum_eq_zero fun count member => ?_
  obtain ⟨entry, known, rfl⟩ := List.mem_map.mp member
  have below := trees.masks entry known
  exact if_neg fun same => some (same.1.symm.trans (Nat.lt_one_iff.mp below))

/-- The table is cleared when its entries have been noted. -/
theorem clear_table (noted : ∀ ntype x, (b.scratch.fastRightsibTable ntype x).isSome = true →
    (ntype, x) ∈ b.scratch.rightsibBackpatchStack) (ntype : Nat) (x : Int) :
    b.clear.scratch.fastRightsibTable ntype x = none := by
  unfold Build.clear
  dsimp only
  split
  · rfl
  · rename_i unnoted
    by_contra present
    exact unnoted (noted ntype x (Option.isSome_iff_ne_none.mpr present))

end Build

namespace StoredTree

variable {tree : StoredTree} {threshold : Int} {item : Nat} {b : Build} {old : Nat → Nat}

/-- `FPArray_scan2_DB` builds one tree, of the restricted paths, and clears the arrays. -/
theorem Ordered.scan2DB (ordered : tree.Ordered threshold item b old) (known : item < tree.itemno)
    (begun : b.Begun) : ∃ b' word entries, tree.scan2DB item b = some b' ∧ b.Kept b' ∧
      Build.Trees b.fptree.numHotItem tree.firstHotItem 1 b' word entries
        (tree.restrictedWords old b.fptree.itemno (tree.nodeArrayList item)) ∧
      b'.scratch.Cleared := by
  obtain ⟨b₁, word₁, entries₁, read, kept₁, trees₁, tabled₁, origin₁⟩ :=
    ordered.foldlM_scanNode known (List.Subset.refl _)
      (begun.trees b.fptree.numHotItem tree.firstHotItem) begun.tabled begun.cleared.origin
  have hot : b₁.fptree.numHotItem = b.fptree.numHotItem := by rw [kept₁.fptree]
  unfold StoredTree.scan2DB
  rw [read, Option.map_some, List.nil_append] at *
  dsimp only
  rw [hot]
  obtain ⟨b₂, counted⟩ : ∃ b₂ : Build, b₂ = { b₁ with
      scratch := { b₁.scratch with newDataNum := b₁.scratch.newDataNum + 1 } } := ⟨_, rfl⟩
  rw [← counted]
  have size : 2 ^ b.fptree.numHotItem - 1 + 1 = 2 ^ b.fptree.numHotItem :=
    Nat.sub_add_cancel Nat.one_le_two_pow
  have trees₂ : Build.Trees b.fptree.numHotItem tree.firstHotItem
      (2 ^ b.fptree.numHotItem - 1 + 1) b₂ word₁ entries₁
      (tree.restrictedWords old b.fptree.itemno (tree.nodeArrayList item)) := by
    rw [size, counted]
    exact { trees₁ with toPlanted := trees₁.toPlanted.congr rfl rfl }
  have kept₂ : b.Kept b₂ := by
    rw [counted]
    exact ⟨kept₁.fptree, kept₁.order, kept₁.supp⟩
  obtain ⟨word₃, entries₃, trees₃⟩ :=
    trees₂.steps ordered.hot_first (by omega)
  have links := Build.links_foldl tree.firstHotItem
    (List.range' 1 (2 ^ b.fptree.numHotItem - 1)).reverse b₂
  generalize (List.range' 1 (2 ^ b.fptree.numHotItem - 1)).reverse.foldl
    (Build.link tree.firstHotItem) b₂ = b₃ at *
  have kept₃ := kept₂.trans links.kept
  refine ⟨_, word₃, entries₃, rfl, ⟨kept₃.fptree, kept₃.order, kept₃.supp⟩,
    { trees₃ with toPlanted := trees₃.toPlanted.congr rfl rfl }, ?_⟩
  constructor
  · intro i
    exact (congrFun kept₃.supp i).trans (begun.cleared.supp i)
  · intro i
    refine (congrFun links.origin i).trans ?_
    rw [counted]
    exact origin₁ i
  · exact fun ntype some => trees₃.hotNodeCount_eq_zero some
  · exact fun ntype some => trees₃.hashtable_eq_none some
  · refine Build.clear_table ?_
    rw [links.table, links.stack, counted]
    exact tabled₁.noted

variable (tree threshold item) in
/-- A tree represents the pattern base of an item, restricted to the items that are frequent in
it. -/
structure Represents (fptree : FPTree) (old : Nat → Nat) : Prop extends
    tree.Items threshold item fptree old where
  /-- The root has the name of no item. -/
  root : (fptree.arena.node 0).label = -1
  /-- A node is reached from the root along one word. -/
  reached : ∀ a < fptree.arena.next, ∃! word, fptree.arena.Path 0 word a
  /-- No two nodes are reached along a word. -/
  one : ∀ word a a', fptree.arena.Path 0 word a → fptree.arena.Path 0 word a' → a = a'
  /-- The words are those that the restricted paths begin with. -/
  path : ∀ word, word ≠ [] → ((∃ a, fptree.arena.Path 0 word a) ↔
    ∃ node ∈ tree.nodeArrayList item, word <+: tree.restrictedPath old fptree.itemno node)
  /-- A node has the counts of the restricted paths that end there, and those of its children. -/
  count_eq : ∀ word a, word ≠ [] → fptree.arena.Path 0 word a →
    (fptree.arena.node a).weight =
      ((tree.nodeArrayList item).map fun node =>
        if tree.restrictedPath old fptree.itemno node = word then node.count else 0).sum +
      ((fptree.arena.node a).children.map fun c => (fptree.arena.node c).weight).sum
  /-- The number of nodes of an item. -/
  nodenum : ∀ x : Nat, fptree.nodenum x =
    (List.range fptree.arena.next).countP fun a => (fptree.arena.node a).label = x

end StoredTree

namespace Build

variable {low hot : Nat} {b : Build} {word : Nat → Nat × List Int}
  {entries : List (Nat × List Int × Nat)} {words : List (List Int × Nat)}

/-- The words of the nodes at the end. -/
theorem Trees.path_iff (trees : Trees low hot 1 b word entries words) {w : List Int} {a : Nat} :
    b.fptree.arena.Path 0 w a ↔ a < b.fptree.arena.next ∧ word a = (0, w) := by
  obtain ⟨inside, root, -⟩ := trees.roots 0 0 trees.root
  rw [trees.formed.path_iff inside, root, List.nil_append]

/-- All nodes are below the root at the end. -/
theorem Trees.path_word (trees : Trees low hot 1 b word entries words) {a : Nat}
    (inside : a < b.fptree.arena.next) : word a = (0, (word a).2) := by
  have present := trees.rooted a inside
  refine Prod.ext ?_ rfl
  by_contra other
  rw [trees.hashtable_eq_none other] at present
  exact nomatch present

/-- The nodes of an item have been counted. -/
theorem Trees.nodenum_eq (trees : Trees low hot 1 b word entries words) (x : Nat) :
    b.fptree.nodenum x =
      (List.range b.fptree.arena.next).countP fun a => (b.fptree.arena.node a).label = x := by
  have names := trees.names x
  rw [pending_eq_zero fun ntype some => trees.hashtable_eq_none some, Nat.add_zero] at names
  rw [← names]
  unfold Arena.names List.count
  rw [List.countP_map]
  rfl

end Build

namespace StoredTree

variable {tree : StoredTree} {threshold : Int} {item : Nat} {b b' : Build} {old : Nat → Nat}

/-- The tree of the restricted paths represents the pattern base. -/
theorem Ordered.represents (ordered : tree.Ordered threshold item b old) (kept : b.Kept b')
    {low hot : Nat} {word : Nat → Nat × List Int} {entries : List (Nat × List Int × Nat)}
    (trees : Build.Trees low hot 1 b' word entries
      (tree.restrictedWords old b.fptree.itemno (tree.nodeArrayList item))) :
    tree.Represents threshold item b'.fptree old := by
  have itemno : b'.fptree.itemno = b.fptree.itemno := by rw [kept.fptree]
  have same := trees.entries_eq
  obtain ⟨inside, -, label⟩ := trees.roots 0 0 trees.root
  refine ⟨(ordered.kept kept).toItems, label, ?_, ?_, ?_, ?_, trees.nodenum_eq⟩
  · intro a inside
    refine ⟨(word a).2, trees.path_iff.mpr ⟨inside, trees.path_word inside⟩, fun w path => ?_⟩
    rw [(trees.path_iff.mp path).2]
  · intro w a a' path path'
    obtain ⟨inside, here⟩ := trees.path_iff.mp path
    obtain ⟨inside', here'⟩ := trees.path_iff.mp path'
    exact trees.formed.inj a inside a' inside' (here.trans here'.symm)
  · intro w some
    rw [itemno]
    constructor
    · rintro ⟨a, path⟩
      obtain ⟨inside, here⟩ := trees.path_iff.mp path
      obtain ⟨entry, member, -, begins⟩ := trees.counts.sound a inside (by rw [here]; exact some)
      rw [same] at member
      obtain ⟨pair, listed, rfl⟩ := List.mem_map.mp member
      obtain ⟨node, known, rfl⟩ := List.mem_map.mp listed
      rw [here] at begins
      exact ⟨node, known, begins⟩
    · rintro ⟨node, known, begins⟩
      have member : (0, tree.restrictedPath old b.fptree.itemno node, node.count) ∈ entries := by
        rw [same]
        exact List.mem_map_of_mem (List.mem_map_of_mem known)
      obtain ⟨a, inside, here⟩ := trees.counts.covers _ member w begins some
      exact ⟨a, trees.path_iff.mpr ⟨inside, here⟩⟩
  · intro w a some path
    obtain ⟨inside, here⟩ := trees.path_iff.mp path
    rw [trees.counts.weight_eq_own trees.formed inside (by rw [here]; exact some), here, itemno,
      same]
    unfold Arena.ownWeight restrictedWords
    rw [List.map_map, List.map_map]
    simp only [Function.comp_def, true_and]

/-- `scan1_DB` and `FPArray_scan2_DB` build the tree of the pattern base of an item, restricted to
the frequent items, and leave the arrays of the thread as cleared as they were. -/
theorem conditionalTree_correct (tree : StoredTree) (threshold : Int) (sorthresh : Nat)
    {item : Nat} (known : item < tree.itemno) {s : Scratch} (cleared : s.Cleared) :
    ∃ b old, tree.conditionalTree threshold sorthresh item s = some b ∧
      tree.Represents threshold item b.fptree old ∧ b.scratch.Cleared := by
  obtain ⟨length, collected, base, done⟩ :=
    conditionalPatternBase_spec threshold known cleared.supp
  obtain ⟨b, old, first, ordered, begun⟩ := scan1DB_spec known sorthresh cleared done
  obtain ⟨b', word, entries, second, kept, trees, cleared'⟩ := ordered.scan2DB known begun
  refine ⟨b', old, ?_, ordered.represents kept trees, cleared'⟩
  unfold conditionalTree
  rw [base, Option.bind_eq_bind, Option.bind_some, first, Option.bind_eq_bind, Option.bind_some]
  exact second

section Sample

/-- The entries of nine paths, of five items. -/
def pathBytes : Bytes := fun x =>
  [4, 3, 2, 1, 0, 0xff, 4, 3, 2, 1, 0xff, 4, 3, 2, 0, 0xff,
    4, 3, 1, 0, 0xff, 4, 2, 1, 0, 0xff, 3, 2, 1, 0, 0xff,
    4, 3, 2, 0xff, 4, 3, 1, 0xff, 4, 3, 0, 0xff].getD x 0

/-- A stored tree with nine nodes of item 5. -/
def sampleTree : StoredTree where
  firstItemno := 6
  itemno := 6
  table i := i
  width := 1
  size := 43
  itemArray := pathBytes
  nodeArrayList item :=
    if item = 5 then
      [⟨0, 2⟩, ⟨6, 1⟩, ⟨11, 3⟩, ⟨16, 1⟩, ⟨21, 1⟩, ⟨26, 2⟩, ⟨31, 1⟩, ⟨35, 1⟩, ⟨39, 4⟩]
    else []
  itemno_le := le_rfl
  table_inj _ _ _ _ same := same
  path_lt item _ node member := by
    split_ifs at member with last
    · subst last
      simp only [List.mem_cons, List.not_mem_nil, or_false] at member
      rcases member with rfl | rfl | rfl | rfl | rfl | rfl | rfl | rfl | rfl
      · exact ⟨[4, 3, 2, 1, 0], by simp [prefixPath, load, pathBytes, endMark], by decide,
          by decide⟩
      · exact ⟨[4, 3, 2, 1], by simp [prefixPath, load, pathBytes, endMark], by decide,
          by decide⟩
      · exact ⟨[4, 3, 2, 0], by simp [prefixPath, load, pathBytes, endMark], by decide,
          by decide⟩
      · exact ⟨[4, 3, 1, 0], by simp [prefixPath, load, pathBytes, endMark], by decide,
          by decide⟩
      · exact ⟨[4, 2, 1, 0], by simp [prefixPath, load, pathBytes, endMark], by decide,
          by decide⟩
      · exact ⟨[3, 2, 1, 0], by simp [prefixPath, load, pathBytes, endMark], by decide,
          by decide⟩
      · exact ⟨[4, 3, 2], by simp [prefixPath, load, pathBytes, endMark], by decide,
          by decide⟩
      · exact ⟨[4, 3, 1], by simp [prefixPath, load, pathBytes, endMark], by decide,
          by decide⟩
      · exact ⟨[4, 3, 0], by simp [prefixPath, load, pathBytes, endMark], by decide,
          by decide⟩
    · exact absurd member List.not_mem_nil
  count_pos item _ node member := by
    split_ifs at member with last
    · revert member
      revert node
      decide
    · exact absurd member List.not_mem_nil

/-- The arrays of a thread before its first tree. -/
def allocated : Scratch where
  supp _ := 0
  globalTableArray _ := 0
  globalCountArray _ := 0
  globalTempOrderArray _ := 0
  globalOrderArray _ := 0
  sumItemNum := 0
  origin _ := 0
  compact _ := 0
  hotNodeCount _ := 0
  hashtable _ := none
  fastRightsibTable _ _ := none
  rightsibBackpatchStack := []
  newDataNum := 0

/-- Allocated arrays are cleared. -/
theorem allocated_cleared : allocated.Cleared :=
  ⟨fun _ => rfl, fun _ => rfl, fun _ _ => rfl, fun _ _ => rfl, fun _ _ => rfl⟩

/-- The tree of the items below 5, of which two are hot, is built for item 5. -/
theorem conditionalTree_sample : hotItems 5 34 = 2 ∧ 5 < sampleTree.itemno ∧
    ∃ b old, sampleTree.conditionalTree 1 16 5 allocated = some b ∧
      sampleTree.Represents 1 5 b.fptree old ∧ b.scratch.Cleared := by
  have known : 5 < sampleTree.itemno := by decide
  exact ⟨by decide, known, conditionalTree_correct sampleTree 1 16 known allocated_cleared⟩

end Sample

end StoredTree

end P3arsec.Freqmine
