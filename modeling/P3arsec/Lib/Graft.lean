import P3arsec.Lib.Trie

/-!
# Trees below trees

A whole tree of a forest is put below the root of another one. Its root gets a label then and
stands in front of the other children, and all words of the tree are one label longer. The root has
no weight as long as it has no label: it gets the weight of all words of its tree.

The labels of all nodes make up a list: an insertion adds the labels of its new nodes to it, and
nothing else. The weight of the words that end at a node is what its children do not have of its
weight.
-/

namespace P3arsec.Lib.Arena

variable {ι κ μ : Type*}

/-- A root becomes the first child of another root, and gets its weight. -/
def graft (arena : Arena κ μ) (a b : Nat) (weight : μ) : Arena κ μ :=
  { arena with
    node := Function.update
      (Function.update arena.node b { arena.node b with weight := weight }) a
      { arena.node a with children := b :: (arena.node a).children } }

variable [DecidableEq ι]

/-- The word of a node after the tree of `i` has been put below the root of `p`. -/
def below (i p : ι) (x : κ) (place : ι × List κ) : ι × List κ :=
  if place.1 = i then (p, x :: place.2) else place

/-- An inserted word after the tree of `i` has been put below the root of `p`. -/
def entryBelow (i p : ι) (x : κ) (entry : ι × List κ × μ) : ι × List κ × μ :=
  if entry.1 = i then (p, x :: entry.2.1, entry.2.2) else entry

section Words

variable {i p : ι} {x : κ} {arena : Arena κ μ} {word : Nat → ι × List κ} {a b c : Nat} {weight : μ}

/-- The walk below a node does not look at what was read before. -/
theorem below_append (i p : ι) (x : κ) (place : ι × List κ) (w : List κ) :
    below i p x (place.1, place.2 ++ w) =
      ((below i p x place).1, (below i p x place).2 ++ w) := by
  unfold below
  dsimp only
  split <;> rfl

omit [DecidableEq ι] in
/-- The grafted node is the first child. -/
theorem graft_node_left : (arena.graft a b weight).node a =
    { arena.node a with children := b :: (arena.node a).children } := by
  unfold graft
  dsimp only
  rw [Function.update_self]

omit [DecidableEq ι] in
/-- The other nodes. -/
theorem graft_node_of_ne (other : c ≠ a) : (arena.graft a b weight).node c =
    if c = b then { arena.node b with weight := weight } else arena.node c := by
  unfold graft
  dsimp only
  rw [Function.update_of_ne other, Function.update_apply]

omit [DecidableEq ι] in
/-- A graft keeps the labels. -/
theorem graft_label : ((arena.graft a b weight).node c).label = (arena.node c).label := by
  by_cases here : c = a
  · rw [here, graft_node_left]
  · rw [graft_node_of_ne here]
    split
    · rename_i same
      rw [same]
    · rfl

omit [DecidableEq ι] in
/-- The children behind a graft. -/
theorem graft_children : ((arena.graft a b weight).node c).children =
    if c = a then b :: (arena.node a).children else (arena.node c).children := by
  by_cases here : c = a
  · rw [here, graft_node_left, if_pos rfl]
  · rw [graft_node_of_ne here, if_neg here]
    split
    · rename_i same
      rw [same]
    · rfl

omit [DecidableEq ι] in
/-- The weights behind a graft. -/
theorem graft_weight (different : a ≠ b) : ((arena.graft a b weight).node c).weight =
    if c = b then weight else (arena.node c).weight := by
  by_cases here : c = a
  · rw [here, graft_node_left, if_neg different]
  · rw [graft_node_of_ne here]
    split <;> rfl

/-- What is needed to put the tree of `i` below the root of `p`: no word of `p` begins with the
label. -/
structure Graftable (arena : Arena κ μ) (word : Nat → ι × List κ) (a b : Nat) (i p : ι) (x : κ) :
    Prop where
  formed : arena.Formed word
  left : a < arena.next
  left_word : word a = (p, [])
  right : b < arena.next
  right_word : word b = (i, [])
  right_label : (arena.node b).label = x
  different : i ≠ p
  fresh : ∀ c < arena.next, word c ≠ (p, [x])

namespace Graftable

variable (graftable : arena.Graftable word a b i p x)
include graftable

omit [DecidableEq ι] in
/-- The grafted node is another one. -/
theorem ne : a ≠ b := by
  intro same
  have words : word a = word b := congrArg word same
  rw [graftable.left_word, graftable.right_word] at words
  exact graftable.different (congrArg Prod.fst words).symm

omit [DecidableEq ι] in
/-- No word of `p` begins with the label. -/
theorem fresh_longer {v : List κ} (inside : c < arena.next) : word c ≠ (p, x :: v) := by
  intro path
  have longer : (word c).2 = [x] ++ v := by rw [path]; rfl
  obtain ⟨c', inside', above⟩ := graftable.formed.exists_prefix inside longer
  rw [path] at above
  exact graftable.fresh c' inside' above

/-- The words stay different. -/
theorem below_inj {c' : Nat} (inside : c < arena.next) (inside' : c' < arena.next)
    (same : below i p x (word c) = below i p x (word c')) : c = c' := by
  apply graftable.formed.inj c inside c' inside'
  unfold below at same
  by_cases first : (word c).1 = i <;> by_cases second : (word c').1 = i
  · rw [if_pos first, if_pos second] at same
    exact Prod.ext (first.trans second.symm) (List.cons.inj (congrArg Prod.snd same)).2
  · rw [if_pos first, if_neg second] at same
    exact absurd same.symm (graftable.fresh_longer inside')
  · rw [if_neg first, if_pos second] at same
    exact absurd same (graftable.fresh_longer inside)
  · rwa [if_neg first, if_neg second] at same

/-- Each node is still the only one at the end of its word. -/
theorem graft (weight : μ) :
    (arena.graft a b weight).Formed fun c => below i p x (word c) := by
  obtain ⟨formed, left, left_word, right, right_word, label, other, fresh⟩ := graftable
  have rooted : below i p x (word a) = (p, []) := by
    unfold below
    rw [left_word, if_neg (Ne.symm other)]
  have moved : below i p x (word b) = (p, [x]) := by
    unfold below
    rw [right_word, if_pos rfl]
  have kept : ∀ a' < arena.next, ∀ c ∈ (arena.node a').children,
      c < arena.next ∧ below i p x (word c) = ((below i p x (word a')).1,
        (below i p x (word a')).2 ++ [((arena.graft a b weight).node c).label]) := by
    intro a' inside c member
    obtain ⟨inside', path⟩ := formed.child a' inside c member
    refine ⟨inside', ?_⟩
    rw [graft_label, path, below_append]
  constructor
  · intro a' inside c member
    rw [graft_children] at member
    split at member
    · rename_i here
      rcases List.mem_cons.mp member with rfl | member
      · refine ⟨right, ?_⟩
        rw [here, rooted, moved, graft_label, label]
        rfl
      · rw [here]
        exact kept a left c member
    · exact kept a' inside c member
  · intro a' inside
    rw [graft_children]
    split
    · refine List.nodup_cons.mpr ⟨fun member => ?_, formed.nodup a left⟩
      have path := (formed.child a left b member).2
      rw [right_word, left_word] at path
      exact other (congrArg Prod.fst path)
    · exact formed.nodup a' inside
  · intro c inside c' inside' same
    exact Graftable.below_inj
      ⟨formed, left, left_word, right, right_word, label, other, fresh⟩ inside inside' same
  · intro c inside w y path
    by_cases here : (word c).1 = i
    · have long : below i p x (word c) = (p, x :: (word c).2) := if_pos here
      rw [long] at path
      rw [long]
      rcases List.eq_nil_or_concat (word c).2 with empty | ⟨v, z, end_⟩
      · rw [empty] at path
        obtain rfl : c = b := formed.inj c inside b right
          ((Prod.ext here empty : word c = (i, [])).trans right_word.symm)
        refine ⟨a, left, ?_, ?_⟩
        · have ends : [] ++ [x] = w ++ [y] := path
          rw [rooted, (List.append_inj' ends rfl).1]
        · rw [graft_children, if_pos rfl]
          exact List.mem_cons_self
      · rw [List.concat_eq_append] at end_
        rw [end_] at path
        obtain ⟨a', inside', above, member⟩ := formed.parent c inside v z end_
        refine ⟨a', inside', ?_, ?_⟩
        · have ends : (x :: v) ++ [z] = w ++ [y] := path
          have begins : x :: v = w := (List.append_inj' ends rfl).1
          rw [above, here]
          unfold below
          rw [if_pos rfl, begins]
        · rw [graft_children]
          split
          · rename_i same
            rw [same] at member
            exact List.mem_cons_of_mem _ member
          · exact member
    · have same : below i p x (word c) = word c := if_neg here
      rw [same] at path
      rw [same]
      obtain ⟨a', inside', above, member⟩ := formed.parent c inside w y path
      refine ⟨a', inside', ?_, ?_⟩
      · rw [above]
        exact if_neg here
      · rw [graft_children]
        split
        · rename_i same
          rw [same] at member
          exact List.mem_cons_of_mem _ member
        · exact member

end Graftable

/-! ### The weights after a tree has moved -/

section Counts

variable [DecidableEq κ] [AddCommMonoid μ] {entries : List (ι × List κ × μ)}

/-- The weight of the words that begin with a word and a label is that of the words of the tree. -/
theorem Graftable.weightOf_moved (graftable : arena.Graftable word a b i p x)
    (counts : arena.Counts word entries) (v : List κ) :
    weightOf (entries.map (entryBelow i p x)) p (x :: v) = weightOf entries i v := by
  unfold weightOf
  rw [List.map_map]
  refine congrArg List.sum (List.map_congr_left fun entry member => ?_)
  dsimp only [Function.comp]
  unfold entryBelow
  by_cases here : entry.1 = i
  · rw [if_pos here]
    simp [here]
  · have unmoved : ¬(entry.1 = p ∧ x :: v <+: entry.2.1) := by
      rintro ⟨same, begins⟩
      obtain ⟨c, inside, path⟩ := counts.covers entry member _ begins (List.cons_ne_nil _ _)
      exact graftable.fresh_longer inside (path.trans (by rw [same]))
    rw [if_neg here, if_neg unmoved, if_neg fun begins => here begins.1]

/-- The other words keep their weights. -/
theorem Graftable.weightOf_kept (graftable : arena.Graftable word a b i p x) {c : Nat}
    (inside : c < arena.next) (apart : (word c).1 ≠ i) (some : (word c).2 ≠ []) :
    weightOf (entries.map (entryBelow i p x)) (word c).1 (word c).2 =
      weightOf entries (word c).1 (word c).2 := by
  unfold weightOf
  rw [List.map_map]
  refine congrArg List.sum (List.map_congr_left fun entry member => ?_)
  dsimp only [Function.comp]
  unfold entryBelow
  by_cases here : entry.1 = i
  · rw [if_pos here, if_neg, if_neg]
    · rintro ⟨same, -⟩
      exact apart (same.symm.trans here)
    · rintro ⟨same, begins⟩
      obtain ⟨y, v, long⟩ := List.exists_cons_of_ne_nil some
      rw [long] at begins
      obtain rfl : y = x := (List.cons_prefix_cons.mp begins).1
      exact graftable.fresh_longer inside (Prod.ext same.symm long)
  · rw [if_neg here]

/-- The nodes are those of the words that have moved. -/
theorem Graftable.counts (graftable : arena.Graftable word a b i p x)
    (counts : arena.Counts word entries) (some : ∃ entry ∈ entries, entry.1 = i) :
    (arena.graft a b (weightOf entries i [])).Counts (fun c => below i p x (word c))
      (entries.map (entryBelow i p x)) := by
  constructor
  · intro c inside long
    rw [graft_weight graftable.ne]
    by_cases here : (word c).1 = i
    · have moved : below i p x (word c) = (p, x :: (word c).2) := if_pos here
      rw [moved, graftable.weightOf_moved counts]
      split
      · rename_i same
        rw [same, graftable.right_word]
      · rename_i other
        have deep : (word c).2 ≠ [] := by
          intro empty
          refine other (graftable.formed.inj c inside b graftable.right ?_)
          rw [graftable.right_word]
          exact Prod.ext here empty
        rw [counts.weight c inside deep, here]
    · have same : below i p x (word c) = word c := if_neg here
      rw [same] at long ⊢
      rw [graftable.weightOf_kept inside here long, if_neg, counts.weight c inside long]
      rintro rfl
      exact here (congrArg Prod.fst graftable.right_word)
  · intro entry member w begins long
    obtain ⟨entry, known, rfl⟩ := List.mem_map.mp member
    unfold entryBelow at begins ⊢
    by_cases here : entry.1 = i
    · rw [if_pos here] at begins ⊢
      obtain ⟨y, v, rfl⟩ := List.exists_cons_of_ne_nil long
      obtain ⟨rfl, rest⟩ : y = x ∧ v <+: entry.2.1 := List.cons_prefix_cons.mp begins
      obtain ⟨c, inside, path⟩ : ∃ c < arena.next, word c = (i, v) := by
        rcases eq_or_ne v [] with rfl | deep
        · exact ⟨b, graftable.right, graftable.right_word⟩
        · obtain ⟨c, inside, path⟩ := counts.covers entry known v rest deep
          exact ⟨c, inside, path.trans (by rw [here])⟩
      refine ⟨c, inside, ?_⟩
      dsimp only
      rw [path]
      exact if_pos rfl
    · rw [if_neg here] at begins ⊢
      obtain ⟨c, inside, path⟩ := counts.covers entry known w begins long
      refine ⟨c, inside, ?_⟩
      rw [path]
      exact if_neg here
  · intro c inside long
    have mapped : ∀ entry ∈ entries, entry.1 = (word c).1 → (word c).2 <+: entry.2.1 →
        ∃ entry ∈ entries.map (entryBelow i p x), entry.1 = (below i p x (word c)).1 ∧
          (below i p x (word c)).2 <+: entry.2.1 := by
      intro entry known same begins
      refine ⟨_, List.mem_map_of_mem known, ?_⟩
      unfold below entryBelow
      rw [same]
      split
      · exact ⟨rfl, List.cons_prefix_cons.mpr ⟨rfl, begins⟩⟩
      · exact ⟨same, begins⟩
    by_cases empty : (word c).2 = []
    · have here : (word c).1 = i := by
        by_contra other
        have same : below i p x (word c) = word c := if_neg other
        rw [same] at long
        exact long empty
      obtain ⟨entry, known, same⟩ := some
      refine mapped entry known (same.trans here.symm) ?_
      rw [empty]
      exact List.nil_prefix
    · obtain ⟨entry, known, same, begins⟩ := counts.sound c inside empty
      exact mapped entry known same begins

/-- A new root has no words. -/
theorem Counts.plant (counts : arena.Counts word entries) (root : ι)
    (node : TrieNode κ μ) :
    (arena.plant node).Counts (Function.update word arena.next (root, [])) entries := by
  have old : ∀ c < arena.next, Function.update word arena.next (root, []) c = word c := by
    intro c inside
    exact Function.update_of_ne inside.ne _ _
  have old_of_some : ∀ c < arena.next + 1,
      (Function.update word arena.next (root, []) c).2 ≠ [] → c < arena.next := by
    intro c bound some
    rcases Nat.lt_succ_iff_lt_or_eq.mp bound with inside | rfl
    · exact inside
    · rw [Function.update_self] at some
      exact absurd rfl some
  constructor
  · intro c bound some
    have inside := old_of_some c bound some
    have kept : (arena.plant node).node c = arena.node c := Function.update_of_ne inside.ne _ _
    rw [old c inside] at some ⊢
    rw [kept]
    exact counts.weight c inside some
  · intro entry member w begins some
    obtain ⟨c, inside, path⟩ := counts.covers entry member w begins some
    exact ⟨c, inside.trans (Nat.lt_succ_self _), (old c inside).trans path⟩
  · intro c bound some
    have inside := old_of_some c bound some
    rw [old c inside] at some ⊢
    exact counts.sound c inside some

/-- The weights of all words of the trees after one has moved. -/
theorem weightOf_nil_below (other : i ≠ p) (q : ι) :
    weightOf (entries.map (entryBelow i p x)) q [] =
      if q = i then 0
      else if q = p then weightOf entries p [] + weightOf entries i []
      else weightOf entries q [] := by
  unfold weightOf
  induction entries with
  | nil => simp
  | cons entry entries ih =>
    simp only [List.nil_prefix, and_true, List.map_cons, List.sum_cons] at ih ⊢
    rw [ih]
    unfold entryBelow
    by_cases here : entry.1 = i
    · by_cases first : q = i
      · simp [here, first, other.symm]
      · by_cases second : q = p
        · simp [here, second, other, other.symm, add_left_comm]
        · simp [here, first, second, Ne.symm first, Ne.symm second]
    · by_cases first : q = i
      · simp [here, first]
      · by_cases second : q = p
        · simp [here, second, other.symm, add_assoc]
        · simp [here, first, second]

end Counts

end Words

/-! ### The labels of all nodes -/

section Names

variable [DecidableEq κ] {arena : Arena κ μ} {a b : Nat} {x : κ} {amount weight : μ}

/-- The labels of the nodes, in the order of their addresses. -/
def names (arena : Arena κ μ) : List κ :=
  (List.range arena.next).map fun a => (arena.node a).label

omit [DecidableEq κ] in
/-- The labels of the first nodes are the same when their lists begin alike. -/
theorem label_of_names {arena' : Arena κ μ} (begins : arena.names <+: arena'.names)
    (inside : a < arena.next) : (arena'.node a).label = (arena.node a).label := by
  obtain ⟨more, same⟩ := begins
  have size := congrArg List.length same
  unfold names at same size
  rw [List.length_append, List.length_map, List.length_map, List.length_range,
    List.length_range] at size
  have entry := congrArg (·[a]?) same
  have inside' : a < arena'.next := by omega
  simp [List.getElem?_append, inside, inside'] at entry
  exact entry.symm

omit [DecidableEq κ] [DecidableEq ι] in
/-- A formed arena is closed. -/
theorem Formed.closed {word : Nat → ι × List κ} (formed : arena.Formed word) : arena.Closed :=
  fun a inside c member => (formed.child a inside c member).1

omit [DecidableEq κ] in
/-- The new node. -/
theorem plant_node_new (node : TrieNode κ μ) :
    (arena.plant node).node arena.next = node := Function.update_self _ _ _

omit [DecidableEq κ] in
/-- The nodes before it. -/
theorem plant_node_of_lt (node : TrieNode κ μ) (inside : a < arena.next) :
    (arena.plant node).node a = arena.node a := Function.update_of_ne inside.ne _ _

/-- A new root leaves the children of the others as they are, and has none. -/
theorem child_plant (closed : arena.Closed) (node : TrieNode κ μ) (leaf : node.children = [])
    (x : κ) : (arena.plant node).child arena.next x = none ∧
      ∀ a < arena.next, (arena.plant node).child a x = arena.child a x := by
  unfold child
  constructor
  · rw [plant_node_new, leaf]
    rfl
  · intro a inside
    rw [plant_node_of_lt node inside]
    refine List.find?_congr fun c member => ?_
    rw [plant_node_of_lt node (closed a inside c member)]

omit [DecidableEq κ] in
/-- The new label is the last one. -/
theorem names_plant (node : TrieNode κ μ) :
    (arena.plant node).names = arena.names ++ [node.label] := by
  unfold names plant
  dsimp only
  rw [List.range_succ, List.map_append, List.map_singleton, Function.update_self]
  refine congrArg (· ++ _) (List.map_congr_left fun a member => ?_)
  rw [Function.update_of_ne (List.mem_range.mp member).ne]

omit [DecidableEq κ] in
/-- A graft keeps the labels. -/
theorem names_graft : (arena.graft a b weight).names = arena.names := by
  unfold names
  exact List.map_congr_left fun c _ => graft_label

omit [DecidableEq κ] in
/-- A new child brings its label. -/
theorem names_append (inside : b < arena.next) :
    (arena.append b x amount).names = arena.names ++ [x] := by
  unfold names
  rw [append_next, List.range_succ, List.map_append, List.map_singleton, append_node_new inside]
  exact congrArg (· ++ _) (List.map_congr_left fun a member =>
    (append_old (List.mem_range.mp member)).1)

omit [DecidableEq κ] in
/-- A new path brings its labels. -/
theorem names_hang (inside : b < arena.next) (items : List κ) :
    (arena.hang amount b items).names = arena.names ++ items := by
  induction items generalizing arena b with
  | nil => exact (List.append_nil _).symm
  | cons x items ih =>
    have rest : ((arena.append b x amount).hang amount arena.next items).names = _ :=
      ih (Nat.lt_succ_self _)
    rw [names_append inside, List.append_assoc] at rest
    exact rest

omit [DecidableEq κ] in
/-- A weight brings no label. -/
theorem names_addWeight [Add μ] : (arena.addWeight amount b).names = arena.names := by
  unfold names addWeight
  refine List.map_congr_left fun a _ => ?_
  dsimp only
  rw [Function.update_apply]
  split
  · rename_i same
    rw [same]
  · rfl

/-- The way down makes no nodes. -/
theorem names_descend [Add μ] (closed : arena.Closed) (inside : b < arena.next) (items : List κ) :
    (arena.descend amount b items).2.1 < (arena.descend amount b items).1.next ∧
      (arena.descend amount b items).1.names = arena.names := by
  induction items generalizing arena b with
  | nil => exact ⟨inside, rfl⟩
  | cons x items ih =>
    unfold descend
    cases found : arena.child b x with
    | none => exact ⟨inside, rfl⟩
    | some c =>
      have below : c < arena.next := closed b inside c (List.mem_of_find?_eq_some found)
      obtain ⟨last, same⟩ : _ ∧ ((arena.addWeight amount c).descend amount c items).1.names = _ :=
        ih (grows_addWeight closed).1 below
      exact ⟨last, same.trans names_addWeight⟩

/-- An insertion makes a node for each label for which it finds none. -/
theorem names_insert [Add μ] (closed : arena.Closed) (inside : b < arena.next) (items : List κ) :
    (arena.insert amount b items).names =
      arena.names ++ (arena.descend amount b items).2.2 := by
  obtain ⟨last, same⟩ : (arena.descend amount b items).2.1 < _ ∧ _ :=
    names_descend closed inside items
  unfold insert
  dsimp only
  rw [names_hang last, same]

end Names

/-! ### The words that end at a node -/

section Own

variable [DecidableEq κ] [AddCommMonoid μ] {arena : Arena κ μ} {word : Nat → ι × List κ}
  {entries : List (ι × List κ × μ)}

/-- The weight of the inserted words of a tree that are a word. -/
def ownWeight (entries : List (ι × List κ × μ)) (root : ι) (w : List κ) : μ :=
  (entries.map fun entry => if entry.1 = root ∧ entry.2.1 = w then entry.2.2 else 0).sum

/-- A node has the weight of the words that end there and the weights of its children. -/
theorem Counts.weight_eq_own (counts : arena.Counts word entries) (formed : arena.Formed word)
    {a : Nat} (inside : a < arena.next) (some : (word a).2 ≠ []) :
    (arena.node a).weight = ownWeight entries (word a).1 (word a).2 +
      ((arena.node a).children.map fun c => (arena.node c).weight).sum := by
  have below : (arena.node a).children.map (fun c => (arena.node c).weight) =
      (arena.labels a).map fun x => weightOf entries (word a).1 ((word a).2 ++ [x]) := by
    unfold labels
    rw [List.map_map]
    refine List.map_congr_left fun c member => ?_
    obtain ⟨inside', path⟩ := formed.child a inside c member
    rw [counts.weight c inside' (by rw [path]; simp), path]
    rfl
  have nodup := formed.labels_nodup inside
  have covers : ∀ entry ∈ entries, entry.1 = (word a).1 → ∀ x rest,
      entry.2.1 = (word a).2 ++ x :: rest → x ∈ arena.labels a := by
    intro entry member same x rest long
    obtain ⟨c, inside', path⟩ := counts.covers entry member ((word a).2 ++ [x])
      (by rw [long]; simp) (by simp)
    have found := (formed.child_iff inside).mpr ⟨inside', by rw [path, same]⟩
    exact child_isSome_iff.mp (by rw [found]; rfl)
  rw [below, counts.weight a inside some]
  generalize arena.labels a = names at nodup covers ⊢
  clear counts below
  unfold weightOf ownWeight
  induction entries with
  | nil => simp
  | cons entry entries ih =>
    have rest := ih fun entry member => covers entry (List.mem_cons_of_mem _ member)
    have here := covers entry List.mem_cons_self
    simp only [List.map_cons, List.sum_cons, List.sum_map_add]
    rw [rest, add_add_add_comm]
    refine congrArg (· + _) ?_
    by_cases same : entry.1 = (word a).1
    · simp only [same, true_and]
      by_cases begins : (word a).2 <+: entry.2.1
      · rw [if_pos begins]
        obtain ⟨tail, long⟩ := begins
        cases tail with
        | nil =>
          rw [List.append_nil] at long
          have short : ∀ x, ¬(word a).2 ++ [x] <+: entry.2.1 := by
            intro x longer
            have size := longer.length_le
            rw [← long, List.length_append, List.length_singleton] at size
            omega
          rw [if_pos long.symm]
          simp [short]
        | cons x tail =>
          have other : entry.2.1 ≠ (word a).2 := by
            rw [← long]
            simp
          have one : ∀ y, (word a).2 ++ [y] <+: entry.2.1 ↔ y = x := by
            intro y
            rw [← long, List.prefix_append_right_inj]
            simp [List.cons_prefix_cons]
          rw [if_neg other, zero_add]
          simp only [one]
          rw [List.sum_map_eq_nsmul_single x _ fun y other _ => if_neg other, if_pos rfl,
            List.count_eq_one_of_mem nodup (here same x tail long.symm), one_nsmul]
      · have short : ∀ x, ¬(word a).2 ++ [x] <+: entry.2.1 :=
          fun x longer => begins ((List.prefix_append _ _).trans longer)
        have other : entry.2.1 ≠ (word a).2 := by
          intro equal
          exact begins (by rw [equal])
        rw [if_neg begins, if_neg other]
        simp [short]
    · simp [same]

end Own

end P3arsec.Lib.Arena
