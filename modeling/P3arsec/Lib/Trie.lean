import Mathlib

/-!
# Tries in an arena

The nodes of a forest are kept in an arena, and each node knows its children. A word is inserted
from a root on: it goes down along the children that carry its labels and adds its weight to them,
and a new chain of nodes is hung below where no child fits. When each node is the only one at the
end of its word, the names of the children of a node are distinct, and the weight of a node is the
weight of the inserted words that begin with its word.
-/

namespace P3arsec.Lib

/-- A node of a trie. -/
structure TrieNode (κ μ : Type*) where
  /-- The last label of its word. -/
  label : κ
  /-- The weight of the words that begin with its word. -/
  weight : μ
  /-- Its children, in the order in which they are searched. -/
  children : List Nat

/-- Nodes at addresses. -/
structure Arena (κ μ : Type*) where
  /-- The nodes. -/
  node : Nat → TrieNode κ μ
  /-- The addresses from here on are free. -/
  next : Nat

namespace Arena

variable {ι κ μ : Type*} [DecidableEq κ]

/-- The child of a node with a label. -/
def child (arena : Arena κ μ) (a : Nat) (x : κ) : Option Nat :=
  (arena.node a).children.find? fun c => decide ((arena.node c).label = x)

/-- A node without a parent. -/
def plant (arena : Arena κ μ) (node : TrieNode κ μ) : Arena κ μ :=
  ⟨Function.update arena.node arena.next node, arena.next + 1⟩

/-- An element comes behind the first one. -/
def second (new : Nat) : List Nat → List Nat
  | [] => [new]
  | head :: tail => head :: new :: tail

/-- A new child of a node comes behind its first child. -/
def append (arena : Arena κ μ) (a : Nat) (x : κ) (amount : μ) : Arena κ μ where
  node := Function.update (Function.update arena.node arena.next ⟨x, amount, []⟩) a
    { arena.node a with children := second arena.next (arena.node a).children }
  next := arena.next + 1

/-- A chain of new nodes below a node. -/
def hang (amount : μ) (arena : Arena κ μ) (a : Nat) : List κ → Arena κ μ
  | [] => arena
  | x :: rest => hang amount (arena.append a x amount) arena.next rest

/-- The names of the children of a node. -/
def labels (arena : Arena κ μ) (a : Nat) : List κ :=
  (arena.node a).children.map fun c => (arena.node c).label

/-- A node is reached along a word. -/
def Path (arena : Arena κ μ) : Nat → List κ → Nat → Prop
  | a, [], b => a = b
  | a, x :: rest, b => ∃ c ∈ (arena.node a).children, (arena.node c).label = x ∧ Path arena c rest b

section Insert

variable [Add μ]

/-- A node gets heavier. -/
def addWeight (arena : Arena κ μ) (amount : μ) (a : Nat) : Arena κ μ :=
  { arena with
    node := Function.update arena.node a
      { arena.node a with weight := (arena.node a).weight + amount } }

/-- The way down along a word, as far as there are children: the arena, the last node, and the rest
of the word. -/
def descend (amount : μ) (arena : Arena κ μ) (a : Nat) : List κ → Arena κ μ × Nat × List κ
  | [] => (arena, a, [])
  | x :: rest =>
    match arena.child a x with
    | none => (arena, a, x :: rest)
    | some c => descend amount (arena.addWeight amount c) c rest

/-- A word is inserted below a node. -/
def insert (amount : μ) (arena : Arena κ μ) (a : Nat) (word : List κ) : Arena κ μ :=
  let found := arena.descend amount a word
  found.1.hang amount found.2.1 found.2.2

omit [DecidableEq κ] in
/-- A node that gets heavier keeps its label and its children. -/
theorem addWeight_same (arena : Arena κ μ) (amount : μ) (b a : Nat) :
    ((arena.addWeight amount b).node a).label = (arena.node a).label ∧
      ((arena.addWeight amount b).node a).children = (arena.node a).children := by
  unfold addWeight
  dsimp only
  by_cases here : a = b
  · rw [here, Function.update_self]
    exact ⟨rfl, rfl⟩
  · rw [Function.update_of_ne here]
    exact ⟨rfl, rfl⟩

variable {arena : Arena κ μ} {amount : μ} {b : Nat} {x : κ}

/-- The way down begins with the child of the first label. -/
theorem insert_cons {items : List κ} {c : Nat} (found : arena.child b x = some c) :
    arena.insert amount b (x :: items) = (arena.addWeight amount c).insert amount c items := by
  unfold Arena.insert
  rw [Arena.descend, found]

/-- Where no child fits a word is hung at once. -/
theorem insert_eq_hang {items : List κ} (missing : ∀ x ∈ items.head?, arena.child b x = none) :
    arena.insert amount b items = arena.hang amount b items := by
  unfold Arena.insert
  cases items with
  | nil => rfl
  | cons x items => rw [Arena.descend, missing x rfl]

end Insert

/-! ### Words of nodes -/

/-- Every node is the only one at the end of its word. The word of a node begins at the root of a
tree; the words of the roots are empty. -/
structure Formed (arena : Arena κ μ) (word : Nat → ι × List κ) : Prop where
  /-- The word of a child is one label longer. -/
  child : ∀ a < arena.next, ∀ c ∈ (arena.node a).children,
    c < arena.next ∧ word c = ((word a).1, (word a).2 ++ [(arena.node c).label])
  /-- No child is listed twice. -/
  nodup : ∀ a < arena.next, (arena.node a).children.Nodup
  /-- The words are different. -/
  inj : ∀ a < arena.next, ∀ b < arena.next, word a = word b → a = b
  /-- A node that is not a root has a parent. -/
  parent : ∀ c < arena.next, ∀ w x, (word c).2 = w ++ [x] →
    ∃ a < arena.next, word a = ((word c).1, w) ∧ c ∈ (arena.node a).children

variable {arena : Arena κ μ} {word : Nat → ι × List κ}

namespace Formed

/-- A child is found by its word. -/
theorem child_iff (formed : arena.Formed word) {a c : Nat} {x : κ} (inside : a < arena.next) :
    arena.child a x = some c ↔ c < arena.next ∧ word c = ((word a).1, (word a).2 ++ [x]) := by
  constructor
  · intro found
    have member := List.mem_of_find?_eq_some found
    have label : (arena.node c).label = x := by
      have holds := List.find?_some found
      exact of_decide_eq_true holds
    obtain ⟨below, path⟩ := formed.child a inside c member
    rw [label] at path
    exact ⟨below, path⟩
  · rintro ⟨below, path⟩
    obtain ⟨a', inside', above, member⟩ := formed.parent c below (word a).2 x (by rw [path])
    have same : a' = a := by
      apply formed.inj a' inside' a inside
      rw [above, path]
    subst same
    have label : (arena.node c).label = x := by
      have longer := (formed.child a' inside' c member).2
      rw [path] at longer
      exact (List.append_cancel_left (congrArg Prod.snd longer) |> List.cons.inj).1.symm
    unfold Arena.child
    cases found : (arena.node a').children.find? fun c => decide ((arena.node c).label = x) with
    | none =>
      have holds := List.find?_eq_none.mp found c member
      exact absurd (decide_eq_true label) holds
    | some c' =>
      have member' := List.mem_of_find?_eq_some found
      have label' : (arena.node c').label = x := by
        have holds := List.find?_some found
        exact of_decide_eq_true holds
      obtain ⟨below', path'⟩ := formed.child a' inside' c' member'
      rw [label'] at path'
      exact congrArg some (formed.inj c' below' c below (path'.trans path.symm))

omit [DecidableEq κ] in
/-- The names of the children are distinct. -/
theorem labels_nodup (formed : arena.Formed word) {a : Nat} (inside : a < arena.next) :
    (arena.labels a).Nodup := by
  refine List.Nodup.map_on ?_ (formed.nodup a inside)
  intro c member c' member' same
  obtain ⟨below, path⟩ := formed.child a inside c member
  obtain ⟨below', path'⟩ := formed.child a inside c' member'
  apply formed.inj c below c' below'
  rw [path, path', same]

omit [DecidableEq κ] in
/-- Every node above a node is there. -/
theorem exists_prefix (formed : arena.Formed word) {c : Nat} (below : c < arena.next) {w v : List κ}
    (path : (word c).2 = w ++ v) : ∃ a < arena.next, word a = ((word c).1, w) := by
  induction v using List.reverseRecOn generalizing c with
  | nil =>
    rw [List.append_nil] at path
    exact ⟨c, below, by rw [← path]⟩
  | append_singleton v x ih =>
    rw [← List.append_assoc] at path
    obtain ⟨a, inside, above, -⟩ := formed.parent c below _ x path
    obtain ⟨b, inside', top⟩ := ih inside (congrArg Prod.snd above)
    refine ⟨b, inside', ?_⟩
    rw [top, above]

/-- The node that is reached along a word. -/
theorem path_iff (formed : arena.Formed word) {a b : Nat} {q : List κ} (inside : a < arena.next) :
    arena.Path a q b ↔ b < arena.next ∧ word b = ((word a).1, (word a).2 ++ q) := by
  induction q generalizing a with
  | nil =>
    constructor
    · rintro rfl
      exact ⟨inside, by rw [List.append_nil]⟩
    · rintro ⟨below, same⟩
      rw [List.append_nil] at same
      exact (formed.inj b below a inside same).symm
  | cons x q ih =>
    constructor
    · rintro ⟨c, member, rfl, path⟩
      obtain ⟨below, longer⟩ := formed.child a inside c member
      obtain ⟨below', same⟩ := (ih below).mp path
      refine ⟨below', ?_⟩
      rw [same, longer]
      simp
    · rintro ⟨below, same⟩
      have longer : (word b).2 = ((word a).2 ++ [x]) ++ q := by
        rw [same]
        simp
      obtain ⟨c, inside', above⟩ := formed.exists_prefix below longer
      have first : (word b).1 = (word a).1 := by rw [same]
      rw [first] at above
      have found := (formed.child_iff inside).mpr ⟨inside', above⟩
      have member := List.mem_of_find?_eq_some found
      have label : (arena.node c).label = x := by
        have holds := List.find?_some found
        exact of_decide_eq_true holds
      refine ⟨c, member, label, (ih inside').mpr ⟨below, ?_⟩⟩
      rw [same, above]
      simp

end Formed

/-! ### New nodes -/

/-- The list with the new element in the second place. -/
theorem mem_second {c new : Nat} {list : List Nat} : c ∈ second new list ↔ c = new ∨ c ∈ list := by
  cases list with
  | nil => simp [second]
  | cons head tail =>
    simp only [second, List.mem_cons]
    tauto

/-- It has no element twice. -/
theorem nodup_second {new : Nat} {list : List Nat} (nodup : list.Nodup) (fresh : new ∉ list) :
    (second new list).Nodup := by
  cases list with
  | nil => exact List.nodup_singleton new
  | cons head tail =>
    obtain ⟨first, rest⟩ := List.nodup_cons.mp nodup
    obtain ⟨other, fresh'⟩ := not_or.mp (mt List.mem_cons.mpr fresh)
    refine List.nodup_cons.mpr ⟨?_, List.nodup_cons.mpr ⟨fresh', rest⟩⟩
    rw [List.mem_cons]
    rintro (same | member)
    · exact other same.symm
    · exact first member

section Append

variable {a b : Nat} {x : κ} {amount : μ}

omit [DecidableEq κ] in
/-- A new child takes the next node. -/
@[simp] theorem append_next : (arena.append b x amount).next = arena.next + 1 := rfl

omit [DecidableEq κ] in
/-- The new child. -/
theorem append_node_new (inside : b < arena.next) :
    (arena.append b x amount).node arena.next = ⟨x, amount, []⟩ := by
  unfold append
  dsimp only
  rw [Function.update_of_ne (by omega), Function.update_self]

omit [DecidableEq κ] in
/-- Its parent. -/
theorem append_node_self : (arena.append b x amount).node b =
    { arena.node b with children := second arena.next (arena.node b).children } := by
  unfold append
  dsimp only
  rw [Function.update_self]

omit [DecidableEq κ] in
/-- The other nodes. -/
theorem append_node_of_ne (inside : a < arena.next) (other : a ≠ b) :
    (arena.append b x amount).node a = arena.node a := by
  unfold append
  dsimp only
  rw [Function.update_of_ne other, Function.update_of_ne (by omega)]

omit [DecidableEq κ] in
/-- The nodes that are there keep their labels and weights. -/
theorem append_old (inside : a < arena.next) :
    ((arena.append b x amount).node a).label = (arena.node a).label ∧
      ((arena.append b x amount).node a).weight = (arena.node a).weight := by
  by_cases same : a = b
  · rw [same, append_node_self]
    exact ⟨rfl, rfl⟩
  · rw [append_node_of_ne inside same]
    exact ⟨rfl, rfl⟩

omit [DecidableEq κ] in
/-- A node has the new child, or a child that it had before. -/
theorem append_children (inside : a < arena.next) {c : Nat} :
    c ∈ ((arena.append b x amount).node a).children ↔
      c ∈ (arena.node a).children ∨ a = b ∧ c = arena.next := by
  by_cases same : a = b
  · rw [same, append_node_self]
    show c ∈ second _ _ ↔ _
    rw [mem_second]
    simp [or_comm]
  · rw [append_node_of_ne inside same]
    simp [same]

omit [DecidableEq κ] in
/-- The words stay different when the next node gets a new one. -/
theorem Formed.inj_update (formed : arena.Formed word) {place : ι × List κ}
    (fresh : ∀ c < arena.next, word c ≠ place) :
    ∀ a < arena.next + 1, ∀ c < arena.next + 1,
      Function.update word arena.next place a = Function.update word arena.next place c →
        a = c := by
  intro a bound c bound' same
  rcases Nat.lt_succ_iff_lt_or_eq.mp bound with below | rfl <;>
    rcases Nat.lt_succ_iff_lt_or_eq.mp bound' with below' | rfl
  · rw [Function.update_of_ne below.ne, Function.update_of_ne below'.ne] at same
    exact formed.inj a below c below' same
  · rw [Function.update_of_ne below.ne, Function.update_self] at same
    exact absurd same (fresh a below)
  · rw [Function.update_of_ne below'.ne, Function.update_self] at same
    exact absurd same.symm (fresh c below')
  · rfl

omit [DecidableEq κ] in
/-- A new child whose word is new keeps the words of the nodes different. -/
theorem Formed.append (formed : arena.Formed word) (inside : b < arena.next)
    (fresh : ∀ c < arena.next, word c ≠ ((word b).1, (word b).2 ++ [x])) :
    (arena.append b x amount).Formed
      (Function.update word arena.next ((word b).1, (word b).2 ++ [x])) := by
  have old : ∀ c < arena.next, Function.update word arena.next
      ((word b).1, (word b).2 ++ [x]) c = word c := by
    intro c below
    exact Function.update_of_ne (by omega) _ _
  constructor
  · intro a bound c member
    rcases Nat.lt_succ_iff_lt_or_eq.mp bound with below | rfl
    · rcases (append_children below).mp member with member | ⟨rfl, rfl⟩
      · obtain ⟨below', path⟩ := formed.child a below c member
        rw [old a below, old c below', (append_old below').1]
        exact ⟨Nat.lt_succ_of_lt below', path⟩
      · rw [old a below, Function.update_self, append_node_new inside]
        exact ⟨Nat.lt_succ_self _, rfl⟩
    · rw [append_node_new inside] at member
      exact nomatch member
  · intro a bound
    rcases Nat.lt_succ_iff_lt_or_eq.mp bound with below | rfl
    · by_cases same : a = b
      · subst same
        rw [append_node_self]
        refine nodup_second (formed.nodup a below) fun member => ?_
        exact absurd (formed.child a below _ member).1 (lt_irrefl _)
      · rw [append_node_of_ne below same]
        exact formed.nodup a below
    · rw [append_node_new inside]
      exact List.nodup_nil
  · exact formed.inj_update fresh
  · intro c below w y path
    rcases Nat.lt_succ_iff_lt_or_eq.mp below with below | rfl
    · rw [old c below] at path ⊢
      obtain ⟨a, inside', above, member⟩ := formed.parent c below w y path
      refine ⟨a, Nat.lt_succ_of_lt inside', ?_, (append_children inside').mpr (.inl member)⟩
      rw [old a inside']
      exact above
    · rw [Function.update_self] at path ⊢
      refine ⟨b, Nat.lt_succ_of_lt inside, ?_, (append_children inside).mpr (.inr ⟨rfl, rfl⟩)⟩
      rw [old b inside, ← (List.append_inj' path rfl).1]

omit [DecidableEq κ] in
/-- A new root begins a new tree. -/
theorem Formed.plant (formed : arena.Formed word) (root : ι) (node : TrieNode κ μ)
    (leaf : node.children = []) (fresh : ∀ c < arena.next, word c ≠ (root, [])) :
    (arena.plant node).Formed (Function.update word arena.next (root, [])) := by
  have old : ∀ c < arena.next, Function.update word arena.next (root, []) c = word c := by
    intro c below
    exact Function.update_of_ne (by omega) _ _
  have node_old : ∀ c < arena.next, (arena.plant node).node c = arena.node c := by
    intro c below
    exact Function.update_of_ne (by omega) _ _
  have node_new : (arena.plant node).node arena.next = node := Function.update_self _ _ _
  constructor
  · intro a below c member
    rcases Nat.lt_succ_iff_lt_or_eq.mp below with below | rfl
    · rw [node_old a below] at member
      obtain ⟨below', path⟩ := formed.child a below c member
      rw [old a below, old c below', node_old c below']
      exact ⟨Nat.lt_succ_of_lt below', path⟩
    · rw [node_new, leaf] at member
      exact nomatch member
  · intro a below
    rcases Nat.lt_succ_iff_lt_or_eq.mp below with below | rfl
    · rw [node_old a below]
      exact formed.nodup a below
    · rw [node_new, leaf]
      exact List.nodup_nil
  · exact formed.inj_update fresh
  · intro c below w y path
    rcases Nat.lt_succ_iff_lt_or_eq.mp below with below | rfl
    · rw [old c below] at path ⊢
      obtain ⟨a, inside', above, member⟩ := formed.parent c below w y path
      refine ⟨a, Nat.lt_succ_of_lt inside', ?_, ?_⟩
      · rw [old a inside']
        exact above
      · rw [node_old a inside']
        exact member
    · rw [Function.update_self] at path
      simp at path

end Append

/-! ### Weights -/

section Weights

variable [AddCommMonoid μ] [DecidableEq ι]

/-- The weight of the inserted words of a tree that begin with a word. -/
def weightOf (entries : List (ι × List κ × μ)) (root : ι) (w : List κ) : μ :=
  (entries.map fun entry => if entry.1 = root ∧ w <+: entry.2.1 then entry.2.2 else 0).sum

/-- The nodes are those of the inserted words, with their weights. -/
structure Counts (arena : Arena κ μ) (word : Nat → ι × List κ) (entries : List (ι × List κ × μ)) :
    Prop where
  /-- The weight of a node is the weight of the words that begin with its word. -/
  weight : ∀ a < arena.next, (word a).2 ≠ [] →
    (arena.node a).weight = weightOf entries (word a).1 (word a).2
  /-- There is a node at each begin of a word. -/
  covers : ∀ entry ∈ entries, ∀ w, w <+: entry.2.1 → w ≠ [] →
    ∃ a < arena.next, word a = (entry.1, w)
  /-- Each node is at the begin of a word. -/
  sound : ∀ a < arena.next, (word a).2 ≠ [] →
    ∃ entry ∈ entries, entry.1 = (word a).1 ∧ (word a).2 <+: entry.2.1

variable {entries : List (ι × List κ × μ)} {root : ι} {amount : μ} {a b : Nat} {x : κ}

/-- One more entry. -/
theorem weightOf_concat (entry : ι × List κ × μ) (w : List κ) :
    weightOf (entries ++ [entry]) root w = weightOf entries root w +
      if entry.1 = root ∧ w <+: entry.2.1 then entry.2.2 else 0 := by
  unfold weightOf
  rw [List.map_append, List.sum_append, List.map_singleton, List.sum_singleton]

/-- A word that is not there yet has no weight. -/
theorem Counts.weightOf_eq_zero (counts : arena.Counts word entries) {w : List κ} (some : w ≠ [])
    (fresh : ∀ a < arena.next, word a ≠ (root, w)) : weightOf entries root w = 0 := by
  unfold weightOf
  refine List.sum_eq_zero fun value member => ?_
  obtain ⟨entry, known, rfl⟩ := List.mem_map.mp member
  refine if_neg fun begins => ?_
  obtain ⟨a, inside, same⟩ := counts.covers entry known w begins.2 some
  exact fresh a inside (by rw [same, begins.1])

/-- A word that is one label longer weighs on one more word. -/
theorem weightOf_longer (begun : List κ) (root' : ι) (w : List κ) :
    weightOf (entries ++ [(root, begun ++ [x], amount)]) root' w =
      weightOf (entries ++ [(root, begun, amount)]) root' w +
        if root = root' ∧ w = begun ++ [x] then amount else 0 := by
  rw [weightOf_concat, weightOf_concat, add_assoc]
  congr 1
  dsimp only
  by_cases here : root = root'
  · by_cases end_ : w = begun ++ [x]
    · have short : ¬begun ++ [x] <+: begun := by
        intro begins
        have longer := begins.length_le
        rw [List.length_append, List.length_singleton] at longer
        omega
      rw [end_]
      simp [here, short]
    · simp [here, end_, List.prefix_concat_iff]
  · simp [here]

/-- An empty word adds no weight. -/
theorem counts_begin (counts : arena.Counts word entries) :
    arena.Counts word (entries ++ [(root, [], amount)]) := by
  constructor
  · intro a inside some
    rw [weightOf_concat, counts.weight a inside some]
    simp [some]
  · intro entry member w begins some
    rcases List.mem_append.mp member with known | new
    · exact counts.covers entry known w begins some
    · rw [List.mem_singleton.mp new] at begins
      exact absurd (List.prefix_nil.mp begins) some
  · intro a inside some
    obtain ⟨entry, known, begins⟩ := counts.sound a inside some
    exact ⟨entry, List.mem_append_left _ known, begins⟩

omit [DecidableEq κ] [AddCommMonoid μ] [DecidableEq ι] in
/-- A longer last word has nodes at all its begins when its end has one. -/
theorem covers_longer {begun : List κ} (nodes : ι × List κ → Prop)
    (covers : ∀ entry ∈ entries ++ [(root, begun, amount)], ∀ w, w <+: entry.2.1 → w ≠ [] →
      nodes (entry.1, w)) (last : nodes (root, begun ++ [x])) :
    ∀ entry ∈ entries ++ [(root, begun ++ [x], amount)], ∀ w, w <+: entry.2.1 → w ≠ [] →
      nodes (entry.1, w) := by
  intro entry member w begins some
  rcases List.mem_append.mp member with known | new
  · exact covers entry (List.mem_append_left _ known) w begins some
  · rw [List.mem_singleton.mp new] at begins ⊢
    rcases List.prefix_concat_iff.mp begins with rfl | earlier
    · exact last
    · exact covers (root, begun, amount) (List.mem_append_right _ (List.mem_singleton_self _)) w
        earlier some

omit [DecidableEq κ] [AddCommMonoid μ] [DecidableEq ι] in
/-- A node at the begin of a word is at the begin of a longer last word. -/
theorem sound_longer {begun w : List κ} {root' : ι}
    (sound : ∃ entry ∈ entries ++ [(root, begun, amount)], entry.1 = root' ∧ w <+: entry.2.1) :
    ∃ entry ∈ entries ++ [(root, begun ++ [x], amount)], entry.1 = root' ∧ w <+: entry.2.1 := by
  obtain ⟨entry, member, here, begins⟩ := sound
  rcases List.mem_append.mp member with known | new
  · exact ⟨entry, List.mem_append_left _ known, here, begins⟩
  · rw [List.mem_singleton.mp new] at here begins
    exact ⟨_, List.mem_append_right _ (List.mem_singleton_self _), here,
      begins.trans (List.prefix_append _ _)⟩

/-- A node that gets heavier takes the last word one label on. -/
theorem Counts.addWeight (formed : arena.Formed word) {begun : List κ}
    (counts : arena.Counts word (entries ++ [(root, begun, amount)])) (inside : b < arena.next)
    (path : word b = (root, begun ++ [x])) :
    (arena.addWeight amount b).Counts word (entries ++ [(root, begun ++ [x], amount)]) := by
  constructor
  · intro a below some
    rw [weightOf_longer, ← counts.weight a below some]
    unfold Arena.addWeight
    dsimp only
    by_cases same : a = b
    · rw [same, Function.update_self, path]
      simp
    · have other : ¬(root = (word a).1 ∧ (word a).2 = begun ++ [x]) := by
        rintro ⟨here, end_⟩
        refine same (formed.inj a below b inside ?_)
        rw [path, here, ← end_]
      rw [Function.update_of_ne same, if_neg other, add_zero]
  · exact covers_longer (fun place => ∃ a < arena.next, word a = place) counts.covers
      ⟨b, inside, path⟩
  · intro a below some
    exact sound_longer (counts.sound a below some)

/-- A new node takes the last word one label on. -/
theorem Counts.append {begun : List κ}
    (counts : arena.Counts word (entries ++ [(root, begun, amount)])) (inside : b < arena.next)
    (fresh : ∀ c < arena.next, word c ≠ (root, begun ++ [x])) :
    (arena.append b x amount).Counts (Function.update word arena.next (root, begun ++ [x]))
      (entries ++ [(root, begun ++ [x], amount)]) := by
  have old : ∀ c < arena.next,
      Function.update word arena.next (root, begun ++ [x]) c = word c := by
    intro c below
    exact Function.update_of_ne (by omega) _ _
  constructor
  · intro a bound some
    rcases Nat.lt_succ_iff_lt_or_eq.mp bound with below | rfl
    · rw [old a below] at some ⊢
      have other : ¬(root = (word a).1 ∧ (word a).2 = begun ++ [x]) := by
        rintro ⟨here, end_⟩
        refine fresh a below ?_
        rw [here, ← end_]
      rw [weightOf_longer, if_neg other, add_zero, ← counts.weight a below some,
        (append_old below).2]
    · rw [Function.update_self, append_node_new inside, weightOf_longer,
        counts.weightOf_eq_zero (by simp) fresh]
      simp
  · refine covers_longer (fun place => ∃ a < arena.next + 1,
      Function.update word arena.next (root, begun ++ [x]) a = place) ?_ ?_
    · intro entry member w begins some
      obtain ⟨a, below, same⟩ := counts.covers entry member w begins some
      exact ⟨a, Nat.lt_succ_of_lt below, (old a below).trans same⟩
    · exact ⟨arena.next, Nat.lt_succ_self _, Function.update_self _ _ _⟩
  · intro a bound some
    rcases Nat.lt_succ_iff_lt_or_eq.mp bound with below | rfl
    · rw [old a below] at some ⊢
      exact sound_longer (counts.sound a below some)
    · rw [Function.update_self]
      exact ⟨_, List.mem_append_right _ (List.mem_singleton_self _), rfl, List.prefix_rfl⟩

omit [DecidableEq κ] [DecidableEq ι] in
/-- A node that gets heavier is still the only one at the end of its word. -/
theorem Formed.addWeight (formed : arena.Formed word) : (arena.addWeight amount b).Formed word := by
  have same := addWeight_same arena amount b
  constructor
  · intro a inside c member
    rw [(same c).1]
    exact formed.child a inside c ((same a).2 ▸ member)
  · intro a inside
    rw [(same a).2]
    exact formed.nodup a inside
  · exact formed.inj
  · intro c below w y path
    obtain ⟨a, inside, above, member⟩ := formed.parent c below w y path
    exact ⟨a, inside, above, by rw [(same a).2]; exact member⟩

/-- The arena holds the inserted words, and the last one is at a node. -/
structure At (arena : Arena κ μ) (word : Nat → ι × List κ) (entries : List (ι × List κ × μ))
    (root : ι) (begun : List κ) (amount : μ) (b : Nat) : Prop where
  formed : arena.Formed word
  counts : arena.Counts word (entries ++ [(root, begun, amount)])
  inside : b < arena.next
  path : word b = (root, begun)

/-- The way down ends where no child fits. -/
theorem At.descend {begun : List κ} (at_ : arena.At word entries root begun amount b)
    (items : List κ) :
    ∃ done rest, items = done ++ rest ∧ (arena.descend amount b items).2.2 = rest ∧
      (arena.descend amount b items).1.At word entries root (begun ++ done) amount
        (arena.descend amount b items).2.1 ∧
      (arena.descend amount b items).1.next = arena.next ∧
      ∀ x ∈ rest.head?, ∀ c < arena.next, word c ≠ (root, begun ++ done ++ [x]) := by
  induction items generalizing arena b begun with
  | nil =>
    refine ⟨[], [], rfl, rfl, ?_, rfl, fun x none => nomatch none⟩
    rw [List.append_nil]
    exact at_
  | cons x items ih =>
    unfold Arena.descend
    cases found : arena.child b x with
    | none =>
      refine ⟨[], x :: items, rfl, rfl, ?_, rfl, ?_⟩
      · rw [List.append_nil]
        exact at_
      · intro y first c below same
        obtain rfl : x = y := Option.some.inj first
        rw [List.append_nil] at same
        have found' := (at_.formed.child_iff at_.inside).mpr ⟨below, by rw [same, at_.path]⟩
        exact absurd (found.symm.trans found') (by simp)
    | some c =>
      obtain ⟨below, path⟩ := (at_.formed.child_iff at_.inside).mp found
      rw [at_.path] at path
      have next : (arena.addWeight amount c).At word entries root (begun ++ [x]) amount c :=
        ⟨at_.formed.addWeight, at_.counts.addWeight at_.formed below path, below, path⟩
      obtain ⟨done, rest, split_, last, ends, size, fresh⟩ := ih next
      refine ⟨x :: done, rest, by rw [split_]; rfl, last, ?_, size, ?_⟩
      · rw [List.append_assoc] at ends
        exact ends
      · rw [List.append_assoc] at fresh
        exact fresh

/-- The chain that is hung below a node. -/
theorem At.hang {begun : List κ} (at_ : arena.At word entries root begun amount b) (rest : List κ)
    (fresh : ∀ x ∈ rest.head?, ∀ c < arena.next, word c ≠ (root, begun ++ [x])) :
    ∃ word', (arena.hang amount b rest).Formed word' ∧
      (arena.hang amount b rest).Counts word' (entries ++ [(root, begun ++ rest, amount)]) ∧
      arena.next ≤ (arena.hang amount b rest).next ∧ (∀ a < arena.next, word' a = word a) ∧
      (∀ c, arena.next ≤ c → c < (arena.hang amount b rest).next →
        (word' c).1 = root ∧ (word' c).2 <+: begun ++ rest) ∧
      ∀ x ∈ rest.head?, arena.next < (arena.hang amount b rest).next ∧
        word' arena.next = (root, begun ++ [x]) := by
  induction rest generalizing arena word b begun with
  | nil =>
    refine ⟨word, at_.formed, ?_, le_rfl, fun _ _ => rfl, fun c low high => ?_,
      fun x none => nomatch none⟩
    · rw [List.append_nil]
      exact at_.counts
    · exact absurd low (Nat.not_le_of_lt high)
  | cons x rest ih =>
    have fresh' := fresh x rfl
    have formed' : (arena.append b x amount).Formed
        (Function.update word arena.next (root, begun ++ [x])) := by
      have grown : _ → (arena.append b x amount).Formed _ := at_.formed.append at_.inside
      rw [at_.path] at grown
      exact grown fresh'
    have next : (arena.append b x amount).At
        (Function.update word arena.next (root, begun ++ [x])) entries root (begun ++ [x]) amount
        arena.next :=
      ⟨formed', at_.counts.append at_.inside fresh', Nat.lt_succ_self _, Function.update_self _ _ _⟩
    have leaf : ((arena.append b x amount).node arena.next).children = [] := by
      rw [append_node_new at_.inside]
    obtain ⟨word', formed'', counts'', size, old, new, first⟩ := ih next (by
      -- the new node has no children yet
      intro y _ c below same
      obtain ⟨a, inside, above, member⟩ := formed'.parent c below (begun ++ [x]) y
        (congrArg Prod.snd same)
      have root_ : ((Function.update word arena.next (root, begun ++ [x])) c).1 = root := by
        rw [same]
      rw [root_] at above
      have here : a = arena.next :=
        formed'.inj a inside _ (Nat.lt_succ_self _) (by rw [above, Function.update_self])
      rw [here, leaf] at member
      exact nomatch member)
    have last : word' arena.next = (root, begun ++ [x]) := by
      rw [old arena.next (Nat.lt_succ_self _), Function.update_self]
    refine ⟨word', formed'', ?_, (Nat.le_succ _).trans size, ?_, ?_, ?_⟩
    · rw [List.append_assoc] at counts''
      exact counts''
    · intro a below
      rw [old a (Nat.lt_succ_of_lt below), Function.update_of_ne (by omega)]
    · intro c low high
      rcases Nat.eq_or_lt_of_le low with rfl | later
      · rw [last]
        exact ⟨rfl, by simp⟩
      · have known := new c later high
        rw [List.append_assoc] at known
        exact known
    · intro y same
      obtain rfl : x = y := Option.some.inj same
      exact ⟨size, last⟩

/-- What an insertion into a tree leaves: the trie with one word more. -/
structure Inserted (arena arena' : Arena κ μ) (word word' : Nat → ι × List κ)
    (entries : List (ι × List κ × μ)) (root : ι) (items : List κ) (amount : μ) : Prop where
  /-- The trie. -/
  formed : arena'.Formed word'
  counts : arena'.Counts word' (entries ++ [(root, items, amount)])
  /-- The nodes that were there are still there. -/
  grows : arena.next ≤ arena'.next
  old : ∀ a < arena.next, word' a = word a
  /-- The new nodes are at begins of the word. -/
  new : ∀ c, arena.next ≤ c → c < arena'.next → (word' c).1 = root ∧ (word' c).2 <+: items

/-- A word is inserted from its root on. -/
theorem Formed.insert (formed : arena.Formed word) (counts : arena.Counts word entries)
    (inside : b < arena.next) (path : word b = (root, [])) (amount : μ) (items : List κ) :
    ∃ word', Inserted arena (arena.insert amount b items) word word' entries root items amount := by
  have begin_ : arena.At word entries root [] amount b :=
    ⟨formed, counts_begin counts, inside, path⟩
  obtain ⟨done, rest, split_, last, at_, size, fresh⟩ := begin_.descend items
  rw [List.nil_append] at at_ fresh
  obtain ⟨word', formed', counts', grows, old, new, -⟩ := at_.hang rest (by
    rw [size]
    exact fresh)
  rw [← split_] at counts' new
  rw [size] at grows old new
  unfold Arena.insert
  dsimp only
  rw [last]
  exact ⟨word', formed', counts', grows, old, new⟩

/-- A word whose first label is new is hung below its root. -/
theorem Formed.hang_root (formed : arena.Formed word) (counts : arena.Counts word entries)
    (inside : b < arena.next) (path : word b = (root, [])) (amount : μ) {items : List κ}
    (missing : ∀ x ∈ items.head?, arena.child b x = none) :
    ∃ word', Inserted arena (arena.hang amount b items) word word' entries root items amount ∧
      ∀ x ∈ items.head?, (arena.hang amount b items).child b x = some arena.next := by
  have begin_ : arena.At word entries root [] amount b :=
    ⟨formed, counts_begin counts, inside, path⟩
  obtain ⟨word', formed', counts', grows, old, new, first⟩ := begin_.hang items (by
    intro x head c below same
    have found := (formed.child_iff inside).mpr ⟨below, by rw [same, path]⟩
    exact absurd ((missing x head).symm.trans found) (by simp))
  refine ⟨word', ⟨formed', counts', grows, old, new⟩, fun x head => ?_⟩
  obtain ⟨below, end_⟩ := first x head
  refine (formed'.child_iff (inside.trans_le grows)).mpr ⟨below, ?_⟩
  rw [end_, old b inside, path]

/-- Only the child for the first label of the word can be new. -/
theorem Inserted.child {arena' : Arena κ μ} {word' : Nat → ι × List κ} {root' : ι} {items : List κ}
    (inserted : Inserted arena arena' word word' entries root items amount)
    (formed : arena.Formed word) (inside : b < arena.next) (path : word b = (root', [])) (x : κ) :
    (∀ c, arena.child b x = some c → arena'.child b x = some c) ∧
      (¬(root' = root ∧ items.head? = some x) → arena'.child b x = arena.child b x) := by
  have path' : word' b = (root', []) := (inserted.old b inside).trans path
  have inside' : b < arena'.next := inside.trans_le inserted.grows
  have before : ∀ c, arena.child b x = some c → arena'.child b x = some c := by
    intro c found
    obtain ⟨below, same⟩ := (formed.child_iff inside).mp found
    refine (inserted.formed.child_iff inside').mpr ⟨below.trans_le inserted.grows, ?_⟩
    rw [inserted.old c below, same, path, path']
  refine ⟨before, fun other => ?_⟩
  cases found : arena'.child b x with
  | none =>
    cases found' : arena.child b x with
    | none => rfl
    | some c => exact absurd (found.symm.trans (before c found')) (by simp)
  | some c =>
    obtain ⟨below, same⟩ := (inserted.formed.child_iff inside').mp found
    rw [path', List.nil_append] at same
    rcases Nat.lt_or_ge c arena.next with old | new
    · refine ((formed.child_iff inside).mpr ⟨old, ?_⟩).symm
      rw [← inserted.old c old, same, path, List.nil_append]
    · obtain ⟨here, begins⟩ := inserted.new c new below
      rw [same] at here begins
      refine absurd ⟨here, ?_⟩ other
      obtain ⟨rest, rfl⟩ := begins
      rfl

end Weights

/-! ### Names of children -/

section Names

/-- No node has a child that is not there. -/
def Closed (arena : Arena κ μ) : Prop :=
  ∀ a < arena.next, ∀ c ∈ (arena.node a).children, c < arena.next

/-- Nodes have been added: no node has lost the name of a child. -/
structure Grows (arena arena' : Arena κ μ) : Prop where
  next : arena.next ≤ arena'.next
  labels : ∀ a < arena.next, (arena.labels a).Sublist (arena'.labels a)

variable {arena' arena'' : Arena κ μ} {b : Nat} {x : κ} {amount : μ}

omit [DecidableEq κ] in
/-- An arena grows into itself. -/
@[refl] theorem Grows.refl (arena : Arena κ μ) : arena.Grows arena :=
  ⟨le_rfl, fun _ _ => List.Sublist.refl _⟩

omit [DecidableEq κ] in
/-- An arena that grows twice has grown. -/
theorem Grows.trans (first : arena.Grows arena') (second : arena'.Grows arena'') :
    arena.Grows arena'' :=
  ⟨first.next.trans second.next, fun a inside =>
    (first.labels a inside).trans (second.labels a (inside.trans_le first.next))⟩

omit [DecidableEq κ] in
/-- The names after a child has been added. -/
theorem labels_append (closed : arena.Closed) (inside : b < arena.next) :
    (arena.append b x amount).Closed ∧ arena.Grows (arena.append b x amount) ∧
      ((arena.append b x amount).labels b).Perm (x :: arena.labels b) := by
  have named : ∀ c < arena.next,
      ((arena.append b x amount).node c).label = (arena.node c).label :=
    fun c below => (append_old below).1
  have kept : ∀ a < arena.next, (arena.node a).children.map
      (fun c => ((arena.append b x amount).node c).label) = arena.labels a := by
    intro a below
    exact List.map_congr_left fun c member => named c (closed a below c member)
  have new : ((arena.append b x amount).node arena.next).label = x := by
    rw [append_node_new inside]
  refine ⟨?_, ⟨Nat.le_succ _, fun a below => ?_⟩, ?_⟩
  · intro a bound c member
    rcases Nat.lt_succ_iff_lt_or_eq.mp bound with below | rfl
    · rcases (append_children below).mp member with member | ⟨-, rfl⟩
      · exact Nat.lt_succ_of_lt (closed a below c member)
      · exact Nat.lt_succ_self _
    · rw [append_node_new inside] at member
      exact nomatch member
  · rw [← kept a below]
    unfold labels
    refine List.Sublist.map _ ?_
    by_cases same : a = b
    · rw [same, append_node_self]
      show (arena.node b).children.Sublist (second _ _)
      cases (arena.node b).children with
      | nil => exact List.nil_sublist _
      | cons head tail => exact (List.sublist_cons_self _ _).cons_cons _
    · rw [append_node_of_ne below same]
  · rw [← kept b inside]
    unfold labels
    rw [append_node_self]
    show ((second arena.next (arena.node b).children).map _).Perm _
    cases (arena.node b).children with
    | nil =>
      simp only [second, List.map_cons, List.map_nil]
      rw [new]
    | cons head tail =>
      simp only [second, List.map_cons]
      rw [new]
      exact List.Perm.swap _ _ _

omit [DecidableEq κ] in
/-- A new path lets the arena grow. -/
theorem grows_hang (closed : arena.Closed) (inside : b < arena.next) (items : List κ) :
    (arena.hang amount b items).Closed ∧ arena.Grows (arena.hang amount b items) ∧
      ∀ x ∈ items.head?, (arena.append b x amount).Grows (arena.hang amount b items) := by
  induction items generalizing arena b with
  | nil => exact ⟨closed, Grows.refl arena, fun x none => nomatch none⟩
  | cons x items ih =>
    obtain ⟨closed', grows, -⟩ := labels_append (x := x) closed inside
    obtain ⟨closed'', grows', -⟩ := ih closed' (Nat.lt_succ_self _)
    refine ⟨closed'', grows.trans grows', fun y same => ?_⟩
    obtain rfl : x = y := Option.some.inj same
    exact grows'

/-- A name of a child is a name of a node. -/
theorem child_isSome_iff : (arena.child b x).isSome ↔ x ∈ arena.labels b := by
  unfold child labels
  rw [List.find?_isSome, List.mem_map]
  simp

variable [Add μ]

omit [DecidableEq κ] in
/-- A weight lets the arena grow. -/
theorem grows_addWeight (closed : arena.Closed) :
    (arena.addWeight amount b).Closed ∧ arena.Grows (arena.addWeight amount b) := by
  have same := addWeight_same arena amount b
  refine ⟨fun a inside c member => closed a inside c ((same a).2 ▸ member), le_rfl,
    fun a _ => ?_⟩
  unfold labels
  rw [(same a).2]
  simp only [same]
  exact List.Sublist.refl _

/-- An insertion loses no name, and the first label is a name then. -/
theorem grows_insert (closed : arena.Closed) (inside : b < arena.next) (items : List κ) :
    (arena.insert amount b items).Closed ∧ arena.Grows (arena.insert amount b items) ∧
      ∀ x ∈ items.head?, x ∈ (arena.insert amount b items).labels b := by
  induction items generalizing arena b with
  | nil => exact ⟨closed, Grows.refl arena, fun x none => nomatch none⟩
  | cons x items ih =>
    cases found : arena.child b x with
    | none =>
      have missing : ∀ y ∈ (x :: items).head?, arena.child b y = none := by
        intro y same
        obtain rfl : x = y := Option.some.inj same
        exact found
      rw [insert_eq_hang missing]
      obtain ⟨closed', grows, first⟩ : (arena.hang amount b (x :: items)).Closed ∧ _ :=
        grows_hang closed inside (x :: items)
      refine ⟨closed', grows, fun y same => ?_⟩
      obtain rfl : x = y := Option.some.inj same
      refine ((first x rfl).labels b (inside.trans (Nat.lt_succ_self _))).subset ?_
      exact (labels_append closed inside).2.2.symm.subset (List.mem_cons_self)
    | some c =>
      have here : x ∈ arena.labels b := child_isSome_iff.mp (by rw [found]; rfl)
      have below : c < arena.next := closed b inside c (List.mem_of_find?_eq_some found)
      obtain ⟨closed', grows⟩ : (arena.addWeight amount c).Closed ∧ _ := grows_addWeight closed
      obtain ⟨closed'', grows', -⟩ := ih closed' (below.trans_le grows.next)
      rw [insert_cons found]
      refine ⟨closed'', grows.trans grows', fun y first => ?_⟩
      obtain rfl : x = y := Option.some.inj first
      exact ((grows.trans grows').labels b inside).subset here

end Names

end Arena

end P3arsec.Lib
