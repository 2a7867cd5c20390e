import P3arsec.Lib.Run

/-!
# Tiling the database

In `database_tiling` the threads read the transactions of the entries of a table from the last one
on. The frequent items of a transaction are hot ones, which make up the bits of `ntype`, and others,
which a thread gathers in `origin`. It appends `ntype`, the number of the other items and these
items to a node of `unsigned short` entries, and opens another node when there is no room. But the
test asks for room for the items and one entry more, and two entries are written before the items.
At the end of an entry of the table the node is taken from the list that has the number of the entry
and not from that of the thread, and there are as many lists as threads only.
-/

namespace P3arsec.Freqmine

open P3arsec.Lib

/-- `hot_item_num`. -/
def hotItemNum : Nat := 16

/-- The table of the database, what `scan1_DB` has found in it, and the sizes of the nodes that the
transactions are appended to. -/
structure Database where
  /-- The transactions of each entry of the table, with a -1 between two of them. -/
  table : List (List Int)
  /-- The number of frequent items. -/
  itemno : Nat
  /-- `item_order`: the number of a frequent item, -1 for other items. -/
  itemOrder : Int → Int
  /-- Frequent items are numbered. -/
  order_lt : ∀ item, itemOrder item < itemno
  /-- The number of threads. -/
  workingthread : Nat
  /-- The size of the first node of each thread, 2000000. -/
  firstSize : Nat
  /-- The size of the other nodes, 5000000. -/
  newSize : Nat
  /-- The first nodes are no larger than the others. -/
  firstSize_le : firstSize ≤ newSize

/-- `num_hot_item`. -/
def Database.numHotItem (db : Database) : Nat := min hotItemNum db.itemno

/-- The variables of a thread in an entry of the table. -/
structure Lane where
  /-- The number of the entry. -/
  i : Nat
  /-- What is still to be read of it, the last item first. -/
  content : List Int
  /-- `newnode`. -/
  newnode : Nat
  /-- Whether that node has been opened in this entry of the table. -/
  opened : Bool
  /-- `size`. -/
  size : Nat
  /-- `currentpos`. -/
  currentpos : Nat
  /-- `ntype`. -/
  ntype : Nat
  /-- `has`. -/
  has : Nat
  /-- `max_item`. -/
  maxItem : Nat
  /-- `min_item`. -/
  minItem : Nat
  deriving DecidableEq

/-- The list that a node is opened in: that of the thread, at the end of an entry of the table the
one that has the number of the entry. -/
def Lane.list (thread : Nat) (lane : Lane) : Nat := if lane.content = [] then lane.i else thread

/-- A write to an entry of a node. -/
structure Write where
  /-- The node. -/
  node : Nat
  /-- The entry. -/
  pos : Nat
  /-- The value. -/
  value : Nat
  deriving DecidableEq

/-- The nodes and the arrays of `database_tiling`. -/
structure Tiler where
  /-- The entries of the table below have been handed out. -/
  next : Nat
  /-- The number of nodes. -/
  nodes : Nat
  /-- The sizes of the nodes. -/
  sizes : Nat → Nat
  /-- `top` of the nodes. -/
  tops : Nat → Nat
  /-- The nodes behind the nodes. -/
  nexts : Nat → Option Nat
  /-- `first` of `thread_mapfile`. -/
  first : Nat → Nat
  /-- `thread_pos`. -/
  threadPos : Nat → Nat
  /-- `origin`. -/
  origin : Nat → Nat → Nat
  /-- `ntypearray`. -/
  ntypearray : Nat → Nat → Nat
  /-- `hot_node_count`. -/
  hotNodeCount : Nat → Nat → Nat
  /-- The writes to the nodes, the first one first. -/
  writes : List Write
  /-- The threads. -/
  lanes : Nat → Option Lane

namespace Tiler

variable (db : Database)

/-- The begin of the parallel loop. -/
def start : Tiler where
  next := 0
  nodes := db.workingthread
  sizes _ := db.firstSize
  tops _ := 0
  nexts _ := none
  first thread := thread
  threadPos _ := 0
  origin _ _ := 1
  ntypearray _ _ := 0
  hotNodeCount _ _ := 0
  writes := []
  lanes _ := none

/-- A thread goes on. -/
def goto (thread : Nat) (lane : Option Lane) (t : Tiler) : Tiler :=
  { t with lanes := Function.update t.lanes thread lane }

/-- One entry of a two-dimensional array is set. -/
def set (array : Nat → Nat → Nat) (thread entry value : Nat) : Nat → Nat → Nat :=
  Function.update array thread (Function.update (array thread) entry value)

/-- An item is read: a hot one sets a bit of `ntype`, and another one is gathered. The bit of an
infrequent item is lost under the mask. -/
def read (thread : Nat) (c : Int) (rest : List Int) (lane : Lane) (t : Tiler) : Tiler :=
  let item := db.itemOrder c
  if item < db.numHotItem then
    let bit := if item < 0 then 0 else 1 <<< item.toNat
    t.goto thread (some { lane with content := rest, ntype := lane.ntype ||| bit })
  else
    let item := item.toNat
    { t with origin := set t.origin thread item 0 }.goto thread
      (some { lane with
        content := rest
        has := lane.has + t.origin thread item
        maxItem := if item > lane.maxItem then item else lane.maxItem
        minItem := if item < lane.minItem then item else lane.minItem })

/-- A node is opened in a list when there is no room. A list from `workingthread` on is behind
`fp_tree_buf` and `thread_mapfile`: what is taken there is no node, so it has no entry that may be
written to. -/
def openNode (list : Nat) (lane : Lane) (t : Tiler) : Tiler × Lane :=
  if lane.size < lane.currentpos + (lane.has + 1) then
    let t := { t with tops := Function.update t.tops lane.newnode lane.currentpos }
    (if list < db.workingthread then
      { t with
        nodes := t.nodes + 1
        sizes := Function.update t.sizes t.nodes db.newSize
        nexts := Function.update t.nexts t.nodes (some (t.first list))
        first := Function.update t.first list t.nodes }
    else { t with nodes := t.nodes + 1, sizes := Function.update t.sizes t.nodes 0 },
    { lane with newnode := t.nodes, opened := true, currentpos := 0 })
  else (t, lane)

/-- The entries for a transaction: its hot items, the number of its other items and these items. -/
def entries (thread : Nat) (lane : Lane) (t : Tiler) : List Nat :=
  (lane.ntype &&& 0xffff) :: lane.has ::
    (List.range' lane.minItem (lane.maxItem + 1 - lane.minItem)).filter
      fun l => t.origin thread l ≠ 1

/-- A transaction is appended, and `origin` is cleared. -/
def write (thread : Nat) (lane : Lane) (t : Tiler) : Tiler × Lane :=
  let values := t.entries thread lane
  let ntype := lane.ntype &&& 0xffff
  ({ t with
    writes := t.writes ++ values.mapIdx fun k value =>
      ⟨lane.newnode, lane.currentpos + k, value % 2 ^ 16⟩
    ntypearray := set t.ntypearray thread ntype (t.ntypearray thread ntype + (lane.has + 1))
    origin := Function.update t.origin thread fun l =>
      if lane.minItem ≤ l ∧ l ≤ lane.maxItem then 1 else t.origin thread l },
    { lane with currentpos := lane.currentpos + values.length })

/-- The end of a transaction: it is appended when it has other items than hot ones. -/
def append (thread list : Nat) (lane : Lane) (t : Tiler) : Tiler × Lane :=
  if 0 < lane.has then
    let (t, lane) := t.openNode db list lane
    t.write thread lane
  else (t, lane)

/-- A transaction is counted. -/
def count (thread : Nat) (lane : Lane) (t : Tiler) : Tiler :=
  let ntype := lane.ntype &&& 0xffff
  { t with hotNodeCount := set t.hotNodeCount thread ntype (t.hotNodeCount thread ntype + 1) }

/-- A step of a thread. -/
def step (thread : Nat) (t : Tiler) : Option Tiler :=
  match t.lanes thread with
  | none => do
    let content ← db.table[t.next]?
    some ({ t with next := t.next + 1 }.goto thread (some
      { i := t.next
        content := content.reverse
        newnode := t.first thread
        opened := false
        size := t.sizes (t.first thread)
        currentpos := t.threadPos thread
        ntype := 0
        has := 0
        maxItem := 0
        minItem := db.itemno }))
  | some lane =>
    match lane.content with
    | c :: rest =>
      if c = -1 then
        let (t, after) := t.append db thread (lane.list thread) lane
        some ((t.count thread lane).goto thread (some
          { after with content := rest, ntype := 0, has := 0, maxItem := 0, minItem := db.itemno }))
      else some (t.read db thread c rest lane)
    | [] =>
      let (t, after) := t.append db thread (lane.list thread) lane
      let t := t.count thread lane
      some ({ t with
        tops := Function.update t.tops after.newnode after.currentpos
        threadPos := Function.update t.threadPos thread after.currentpos }.goto thread none)

/-- The states of runs in which each step meets a condition. -/
def Reached (condition : Nat → Tiler → Prop) : Tiler → Prop :=
  Reachable (· = start db) fun t next =>
    ∃ thread < db.workingthread, condition thread t ∧ t.step db thread = some next

/-- A node that is opened is opened in a list that there is, and a transaction is not longer than
it. Where none is opened the node in use has not exactly one entry more than the transaction has
items, or it is larger than `size` says, as it has been opened in the same entry of the table. -/
def Fits (list : Nat) (lane : Lane) : Prop :=
  if lane.size < lane.currentpos + (lane.has + 1) then
    list < db.workingthread ∧ lane.has + 2 ≤ db.newSize
  else
    lane.size ≠ lane.currentpos + (lane.has + 1) ∨ lane.opened = true ∧ lane.size < db.newSize

/-- A transaction that is appended in a step fits. -/
def Careful (thread : Nat) (t : Tiler) : Prop :=
  ∀ lane, t.lanes thread = some lane → lane.content = [] ∨ lane.content.head? = some (-1) →
    0 < lane.has → Fits db (lane.list thread) lane

/-- All writes are to entries of nodes. -/
def Inside (t : Tiler) : Prop := ∀ write ∈ t.writes, write.pos < t.sizes write.node

/-! ### What a thread has gathered -/

/-- The items that a thread has gathered of a transaction are those whose entry of `origin` is
clear, and they lie between the least and the greatest item. -/
structure Gathers (origin : Nat → Nat) (lane : Lane) (items : Finset Nat) : Prop where
  has : lane.has = items.card
  origin : ∀ l, db.numHotItem ≤ l → l < db.itemno → origin l = if l ∈ items then 0 else 1
  cold : ∀ l ∈ items, db.numHotItem ≤ l ∧ l < db.itemno
  bounds : ∀ l ∈ items, lane.minItem ≤ l ∧ l ≤ lane.maxItem
  least : db.numHotItem ≤ lane.minItem
  greatest : lane.maxItem < db.itemno ∨ lane.maxItem = 0

variable {db}

/-- At the begin of a transaction nothing has been gathered. -/
theorem Gathers.begin {origin : Nat → Nat} {lane : Lane} (has : lane.has = 0)
    (greatest : lane.maxItem = 0) (least : lane.minItem = db.itemno)
    (clear : ∀ l, db.numHotItem ≤ l → l < db.itemno → origin l = 1) :
    Gathers db origin lane ∅ where
  has := by simp [has]
  origin l low high := by simp [clear l low high]
  cold l member := absurd member (Finset.notMem_empty l)
  bounds l member := absurd member (Finset.notMem_empty l)
  least := by
    rw [least]
    exact min_le_right _ _
  greatest := Or.inr greatest

/-- Where nothing has been gathered all entries of `origin` are set. -/
theorem Gathers.clear {origin : Nat → Nat} {lane : Lane} {items : Finset Nat}
    (gathers : Gathers db origin lane items) (none : lane.has = 0) :
    ∀ l, db.numHotItem ≤ l → l < db.itemno → origin l = 1 := by
  intro l low high
  have empty : items = ∅ := Finset.card_eq_zero.mp (gathers.has.symm.trans none)
  rw [gathers.origin l low high, empty, if_neg (Finset.notMem_empty l)]

/-- The items are the entries of `origin` that are not set between the least and the greatest
item. -/
theorem Gathers.filter {origin : Nat → Nat} {lane : Lane} {items : Finset Nat}
    (gathers : Gathers db origin lane items) (some : 0 < lane.has) :
    ((List.range' lane.minItem (lane.maxItem + 1 - lane.minItem)).filter
      fun l => origin l ≠ 1).length = lane.has := by
  have least := gathers.least
  have nodup : ((List.range' lane.minItem (lane.maxItem + 1 - lane.minItem)).filter
      fun l => origin l ≠ 1).Nodup := List.Nodup.filter _ List.nodup_range'
  rw [← List.toFinset_card_of_nodup nodup, gathers.has]
  congr 1
  ext l
  simp only [List.toFinset_filter, Finset.mem_filter, List.mem_toFinset, List.mem_range'_1,
    decide_eq_true_eq]
  constructor
  · rintro ⟨⟨low, high⟩, open_⟩
    have inRange : l < db.itemno := by
      obtain ⟨item, member⟩ : items.Nonempty := by
        rw [← Finset.card_pos, ← gathers.has]
        exact some
      have bounds := gathers.bounds item member
      have cold := gathers.cold item member
      rcases gathers.greatest with greatest | greatest <;> omega
    by_contra outside
    rw [gathers.origin l (by omega) inRange, if_neg outside] at open_
    exact open_ rfl
  · intro member
    have bounds := gathers.bounds l member
    have cold := gathers.cold l member
    refine ⟨by omega, ?_⟩
    rw [gathers.origin l cold.1 cold.2, if_pos member]
    exact Nat.zero_ne_one

/-- After a transaction has been written all entries of `origin` are set. -/
theorem Gathers.cleared {origin : Nat → Nat} {lane : Lane} {items : Finset Nat}
    (gathers : Gathers db origin lane items) (l : Nat) (low : db.numHotItem ≤ l)
    (high : l < db.itemno) :
    (if lane.minItem ≤ l ∧ l ≤ lane.maxItem then 1 else origin l) = 1 := by
  split
  · rfl
  · rename_i outside
    rw [gathers.origin l low high, if_neg fun member => outside (gathers.bounds l member)]

/-- An item that is read is gathered once. -/
theorem Gathers.read {origin : Nat → Nat} {lane : Lane} {items : Finset Nat}
    (gathers : Gathers db origin lane items) (item : Nat) (low : db.numHotItem ≤ item)
    (high : item < db.itemno) (rest : List Int) :
    Gathers db (Function.update origin item 0)
      { lane with
        content := rest
        has := lane.has + origin item
        maxItem := if item > lane.maxItem then item else lane.maxItem
        minItem := if item < lane.minItem then item else lane.minItem }
      (insert item items) where
  has := by
    rw [gathers.origin item low high, gathers.has]
    split
    · rename_i member
      rw [Finset.insert_eq_self.mpr member, Nat.add_zero]
    · rename_i outside
      rw [Finset.card_insert_of_notMem outside]
  origin l low' high' := by
    rw [Function.update_apply, gathers.origin l low' high']
    by_cases same : l = item <;> simp [same]
  cold l member := by
    rcases Finset.mem_insert.mp member with rfl | member
    · exact ⟨low, high⟩
    · exact gathers.cold l member
  bounds l member := by
    dsimp only
    rcases Finset.mem_insert.mp member with rfl | member
    · constructor <;> split <;> omega
    · have bounds := gathers.bounds l member
      constructor <;> split <;> omega
  least := by
    have least := gathers.least
    dsimp only
    split <;> omega
  greatest := by
    have greatest := gathers.greatest
    dsimp only
    split <;> omega

/-! ### What is appended -/

variable (db) in
/-- The node that a thread writes to exists. It has the size that the thread knows unless it has
been opened in the same entry of the table, and then it is no smaller. -/
def InNode (lane : Lane) (t : Tiler) : Prop :=
  lane.newnode < t.nodes ∧ lane.size ≤ db.newSize ∧
    t.sizes lane.newnode = if lane.opened then db.newSize else lane.size

variable (db) in
/-- The first node of a list exists and is no larger than one that is opened. -/
def Listed (list : Nat) (t : Tiler) : Prop :=
  t.first list < t.nodes ∧ t.sizes (t.first list) ≤ db.newSize

/-- What an append leaves: it touches no other thread's items, it clears the items, it keeps the
nodes there are, and its writes are inside a node exactly when the transaction fits. -/
structure Appended (db : Database) (thread list : Nat) (lane : Lane) (t after : Tiler)
    (next : Lane) : Prop where
  lanes : after.lanes = t.lanes
  nodes : t.nodes ≤ after.nodes
  sizes : ∀ node < t.nodes, after.sizes node = t.sizes node
  first : ∀ other, Listed db other t → Listed db other after
  others : ∀ other, other ≠ thread → after.origin other = t.origin other
  clear : ∀ l, db.numHotItem ≤ l → l < db.itemno → after.origin thread l = 1
  there : next.newnode < after.nodes
  node : list < db.workingthread → InNode db next after
  old : ∀ write ∈ t.writes, write ∈ after.writes
  new : ∀ write ∈ after.writes, write ∈ t.writes ∨ write.node = next.newnode
  inside : (∀ write ∈ t.writes, write.node < t.nodes) → Inside t →
    (Inside after ↔ (0 < lane.has → Fits db list lane))

/-- A list keeps its first node where a node is opened. -/
theorem Listed.opened {other : Nat} {t after : Tiler} (listed : Listed db other t)
    (nodes : after.nodes = t.nodes + 1)
    (sizes : ∀ node < t.nodes, after.sizes node = t.sizes node)
    (first : after.first other = t.first other) : Listed db other after := by
  unfold Listed
  rw [first, nodes, sizes _ listed.1]
  exact ⟨Nat.lt_succ_of_lt listed.1, listed.2⟩

variable (db) in
/-- What holds in every state: a thread in no entry of the table has gathered nothing, a thread in
one writes to a node that exists, and so do all writes. -/
structure Inv (t : Tiler) : Prop where
  first : ∀ thread < db.workingthread, Listed db thread t
  idle : ∀ thread, t.lanes thread = none →
    ∀ l, db.numHotItem ≤ l → l < db.itemno → t.origin thread l = 1
  node : ∀ thread lane, t.lanes thread = some lane → InNode db lane t
  gathers : ∀ thread lane, t.lanes thread = some lane →
    ∃ items, Gathers db (t.origin thread) lane items
  owned : ∀ write ∈ t.writes, write.node < t.nodes

/-- A step of a thread keeps the invariant where it keeps the nodes and what the other threads have
gathered, and where the thread is in its node with what it has gathered. -/
theorem Inv.goto {thread : Nat} {t : Tiler} (after : Tiler) {lane : Option Lane} (inv : t.Inv db)
    (lanes : after.lanes = t.lanes) (nodes : t.nodes ≤ after.nodes)
    (sizes : ∀ node < t.nodes, after.sizes node = t.sizes node)
    (first : ∀ other, Listed db other t → Listed db other after)
    (others : ∀ other, other ≠ thread → after.origin other = t.origin other)
    (owned : ∀ write ∈ after.writes, write.node < after.nodes)
    (idle : lane = none → ∀ l, db.numHotItem ≤ l → l < db.itemno → after.origin thread l = 1)
    (running : ∀ next, lane = some next →
      InNode db next after ∧ ∃ items, Gathers db (after.origin thread) next items) :
    (after.goto thread lane).Inv db where
  first other bound := first other (inv.first other bound)
  idle other none := by
    change Function.update after.lanes thread lane other = _ at none
    change ∀ l, _ → _ → after.origin other l = 1
    by_cases same : other = thread
    · subst same
      rw [Function.update_self] at none
      exact idle none
    · rw [Function.update_of_ne same, lanes] at none
      rw [others other same]
      exact inv.idle other none
  node other next runs := by
    change Function.update after.lanes thread lane other = _ at runs
    by_cases same : other = thread
    · subst same
      rw [Function.update_self] at runs
      exact (running next runs).1
    · rw [Function.update_of_ne same, lanes] at runs
      have node := inv.node other next runs
      exact ⟨lt_of_lt_of_le node.1 nodes, node.2.1, (sizes _ node.1).trans node.2.2⟩
  gathers other next runs := by
    change Function.update after.lanes thread lane other = _ at runs
    change ∃ items, Gathers db (after.origin other) next items
    by_cases same : other = thread
    · subst same
      rw [Function.update_self] at runs
      exact (running next runs).2
    · rw [Function.update_of_ne same, lanes] at runs
      rw [others other same]
      exact inv.gathers other next runs
  owned := owned

/-- A step of a thread keeps the invariant after an append. -/
theorem Inv.appended {thread list : Nat} {lane next : Lane} {t middle after : Tiler}
    {goes : Option Lane} (inv : t.Inv db) (appended : Appended db thread list lane t middle next)
    (lanes : after.lanes = middle.lanes) (nodes : after.nodes = middle.nodes)
    (sizes : after.sizes = middle.sizes) (first : after.first = middle.first)
    (origin : after.origin = middle.origin) (writes : after.writes = middle.writes)
    (running : ∀ other, goes = some other → InNode db other middle ∧ other.has = 0 ∧
      other.maxItem = 0 ∧ other.minItem = db.itemno) :
    (after.goto thread goes).Inv db := by
  refine inv.goto after (lanes.trans appended.lanes) (nodes ▸ appended.nodes) ?_ ?_ ?_ ?_ ?_ ?_
  · rw [sizes]
    exact appended.sizes
  · intro other listed
    unfold Listed
    rw [first, nodes, sizes]
    exact appended.first other listed
  · rw [origin]
    exact appended.others
  · rw [writes, nodes]
    intro write member
    rcases appended.new write member with old | new
    · exact lt_of_lt_of_le (inv.owned write old) appended.nodes
    · rw [new]
      exact appended.there
  · rw [origin]
    exact fun _ => appended.clear
  · intro other goes
    obtain ⟨node, has, greatest, least⟩ := running other goes
    rw [origin]
    refine ⟨?_, ∅, Gathers.begin has greatest least appended.clear⟩
    unfold InNode
    rw [nodes, sizes]
    exact node

/-- One thread, 17 frequent items and one entry of the table with one transaction and so many more,
each of the one item that is not hot. -/
def coldDatabase (more : Nat) : Database where
  table := [(16 :: (List.replicate more [-1, 16]).flatten).reverse]
  itemno := 17
  itemOrder item := if item < 17 then item else -1
  order_lt item := by split <;> omega
  workingthread := 1
  firstSize := 2000000
  newSize := 5000000
  firstSize_le := by decide

/-- A thread in its first node has written some transactions of three entries each. It has gathered
nothing, or an item, and there are so many transactions more. -/
structure Ready (gathered : Bool) (written more : Nat) (t : Tiler) : Prop where
  lane : t.lanes 0 = some
    { i := 0
      content := (if gathered then [] else [16]) ++ (List.replicate more [-1, 16]).flatten
      newnode := 0
      opened := false
      size := 2000000
      currentpos := 3 * written
      ntype := 0
      has := if gathered then 1 else 0
      maxItem := if gathered then 16 else 0
      minItem := if gathered then 16 else 17 }
  origin : t.origin 0 16 = if gathered then 0 else 1
  size : t.sizes 0 = 2000000

/-- The item of a transaction is read. -/
theorem Ready.read {all written more : Nat} {t : Tiler} (ready : Ready false written more t) :
    ∃ next, t.step (coldDatabase all) 0 = some next ∧ Ready true written more next := by
  unfold step
  rw [ready.lane]
  simp only [Bool.false_eq_true, if_false, List.singleton_append]
  rw [if_neg (by decide)]
  refine ⟨_, rfl, ?_, ?_, ?_⟩
  · simp [Tiler.read, Tiler.goto, coldDatabase, Database.numHotItem, hotItemNum, ready.origin]
  · simp [Tiler.read, Tiler.goto, coldDatabase, Database.numHotItem, hotItemNum, set]
  · simp [Tiler.read, Tiler.goto, coldDatabase, Database.numHotItem, hotItemNum, ready.size]

/-- A transaction for which there seems to be room is written to the node in use. -/
theorem append_room {thread list : Nat} {lane : Lane} {t : Tiler} (has : 0 < lane.has)
    (room : lane.currentpos + (lane.has + 1) ≤ lane.size) :
    t.append db thread list lane = t.write thread lane := by
  unfold append openNode
  simp only [if_pos has, if_neg (Nat.not_lt.mpr room)]

/-- The entries of a transaction of the item. -/
theorem entries_cold {lane : Lane} {t : Tiler} (origin : t.origin 0 16 = 0) (ntype : lane.ntype = 0)
    (has : lane.has = 1) (greatest : lane.maxItem = 16) (least : lane.minItem = 16) :
    t.entries 0 lane = [0, 1, 16] := by
  simp [entries, origin, ntype, has, greatest, least]

/-- A transaction that has room is written, and the next one begins. -/
theorem Ready.write {all written more : Nat} {t : Tiler} (ready : Ready true written (more + 1) t)
    (room : 3 * written + 2 ≤ 2000000) :
    ∃ next, t.step (coldDatabase all) 0 = some next ∧ Ready false (written + 1) more next := by
  unfold step
  rw [ready.lane]
  simp only [if_true, List.nil_append, List.replicate_succ, List.flatten_cons, List.cons_append]
  rw [append_room Nat.one_pos room]
  refine ⟨_, rfl, ?_, ?_, ?_⟩
  · simp [Tiler.write, Tiler.goto, entries_cold ready.origin, coldDatabase]
    omega
  · simp [Tiler.write, Tiler.goto, count]
  · simp [Tiler.write, Tiler.goto, count, ready.size]

/-- The last transaction is written, the third of its entries behind the node. -/
theorem Ready.overflow {all written : Nat} {t : Tiler} (ready : Ready true written 0 t)
    (room : 3 * written + 2 = 2000000) :
    ∃ next, t.step (coldDatabase all) 0 = some next ∧ ¬Inside next := by
  unfold step
  rw [ready.lane]
  simp only [if_true, List.nil_append, List.replicate_zero, List.flatten_nil]
  rw [append_room Nat.one_pos room.le]
  refine ⟨_, rfl, fun inside => ?_⟩
  have last := inside ⟨0, 3 * written + 2, 16⟩ (by
    simp [Tiler.write, Tiler.goto, entries_cold ready.origin, count])
  simp [Tiler.write, Tiler.goto, count, ready.size] at last
  omega

/-- All transactions but the last one are written. -/
theorem Ready.run {all written : Nat} (more : Nat) {t : Tiler} (ready : Ready true written more t)
    (room : 3 * (written + more) ≤ 2000000)
    (reached : Reached (coldDatabase all) (fun _ _ => True) t) :
    ∃ next, Reached (coldDatabase all) (fun _ _ => True) next ∧
      Ready true (written + more) 0 next := by
  induction more generalizing written t with
  | zero => exact ⟨t, reached, ready⟩
  | succ more ih =>
    obtain ⟨middle, writes, ready⟩ := Ready.write ready (by omega)
    have reached := reached.step ⟨0, Nat.one_pos, trivial, writes⟩
    obtain ⟨next, reads, ready⟩ := Ready.read ready
    have reached := reached.step ⟨0, Nat.one_pos, trivial, reads⟩
    obtain ⟨last, reached, ready⟩ := ih ready (by omega) reached
    refine ⟨last, reached, ?_⟩
    rwa [Nat.add_right_comm] at ready

/-- The thread begins with the entry of the table. -/
theorem Ready.begin (more : Nat) :
    ∃ t, (start (coldDatabase more)).step (coldDatabase more) 0 = some t ∧
      Ready false 0 more t := by
  refine ⟨_, rfl, ?_, rfl, rfl⟩
  simp [Tiler.goto, start, coldDatabase]

end Tiler

end P3arsec.Freqmine
