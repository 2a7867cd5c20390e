import P3arsec.Freqmine.MergedWork
import P3arsec.Lib.Writes

/-!
# The first tree

`scan2_DB` inserts the transactions of each mask below the node of the mask. The parts of the work
are handed out to threads. For the first 16 masks a table of the thread knows the children of the
node. For the other masks the children are searched, but only if the local variable `temp` is not
null, and it has no value yet. When it happens to be null, the whole transaction becomes a new
branch, also where there is a child with the name of its first item.
-/

namespace P3arsec.Freqmine

open P3arsec.Lib

/-- `fast_rightsib_table_size`. -/
def fastRightsibTableSize : Nat := 16

/-- The transactions that are read between two places of `threadtranscontent`. -/
def readTransactions (content : Nat → Nat) (size currentPos : Nat) : List (List Nat) :=
  if currentPos < size then
    let has := content currentPos
    (List.range' (currentPos + 1) has).map content ::
      readTransactions content size (currentPos + 1 + has)
  else []
termination_by size - currentPos

/-- What is left of `database_tiling` for `scan2_DB`. -/
structure Tiles where
  /-- The nodes of the masks. -/
  hot : Hot
  /-- `ntypeidarray`. -/
  ntypeidarray : Nat → Nat
  /-- The parts of the work. -/
  merge : Merge

/-- What a thread does in a part of the work. -/
inductive Event where
  /-- It begins with a mask. -/
  | enter (ntype : Nat)
  /-- It inserts a transaction of a mask, the one with number `k`. -/
  | insert (ntype k : Nat) (compact : List Int)

/-- The mask. -/
def Event.ntype : Event → Nat
  | .enter ntype => ntype
  | .insert ntype _ _ => ntype

/-- The variables of `scan2_DB`. -/
structure Scan where
  /-- The nodes. -/
  arena : Arena Int Nat
  /-- `fast_rightsib_table`: for each thread the children of the first masks. -/
  fastRightsibTable : Nat → Nat → Int → Option Nat
  /-- `rightsib_backpatch_stack`: for each thread the entries that were set. -/
  rightsibBackpatchStack : Nat → List (Nat × Int)
  /-- `global_nodenum`. -/
  globalNodenum : Nat → Int → Nat
  /-- `threadworkload`. -/
  threadworkload : Nat → List Nat

namespace Scan

/-- A transaction as it stands in the nodes. -/
def itemsOf (transaction : List Nat) : List Int := transaction.map Nat.cast

/-- The rest of a transaction becomes new nodes. -/
def extend (thread : Nat) (found : Arena Int Nat × Nat × List Int) (s : Scan) : Scan :=
  { s with
    arena := found.1.hang 1 found.2.1 found.2.2
    globalNodenum := Function.update s.globalNodenum thread fun x =>
      s.globalNodenum thread x + found.2.2.count x }

/-- An entry of the table is set, and noted for the end. -/
def backpatch (thread ntype : Nat) (x : Int) (child : Nat) (s : Scan) : Scan :=
  { s with
    fastRightsibTable := Function.update s.fastRightsibTable thread
      (Function.update (s.fastRightsibTable thread) ntype
        (Function.update (s.fastRightsibTable thread ntype) x (some child)))
    rightsibBackpatchStack := Function.update s.rightsibBackpatchStack thread
      (s.rightsibBackpatchStack thread ++ [(ntype, x)]) }

/-- A transaction is inserted below the node of its mask, where `null` says that `temp` is null
before it has a value. -/
def insertTransaction (thread ntype : Nat) (null : Bool) (root : Nat) (compact : List Int)
    (s : Scan) : Scan :=
  if ntype < fastRightsibTableSize then
    match compact with
    | [] => s
    | x :: rest =>
      match s.fastRightsibTable thread ntype x with
      | none => (s.extend thread (s.arena, root, x :: rest)).backpatch thread ntype x s.arena.next
      | some child =>
        s.extend thread ((s.arena.addWeight 1 child).descend 1 child rest)
  else if null then s.extend thread (s.arena, root, compact)
  else s.extend thread (s.arena.descend 1 root compact)

/-- One step of a thread. There is no result where the node of the mask is missing. -/
def step (numHotItem : Nat) (hashtable : Nat → Option Nat) (null : Nat → Nat → Bool) (thread : Nat)
    (event : Event) (s : Scan) : Option Scan :=
  match event with
  | .enter ntype => some { s with
      globalNodenum := if ntype = 0 then s.globalNodenum else
        Function.update s.globalNodenum thread
          (Function.update (s.globalNodenum thread) (hotNodeIndex ntype numHotItem)
            (s.globalNodenum thread (hotNodeIndex ntype numHotItem) + 1))
      threadworkload := Function.update s.threadworkload thread
        (s.threadworkload thread ++ [ntype]) }
  | .insert ntype k compact => do
    let root ← hashtable ntype
    some (s.insertTransaction thread ntype (null ntype k) root compact)

end Scan

namespace Tiles

variable (db : Tiled) (tiles : Tiles)

/-- The masks of a part of the work. -/
def masks (j : Nat) : List Nat := (tiles.merge.part j).map tiles.ntypeidarray

/-- What is done for a mask. -/
def maskEvents (ntype : Nat) : List Event :=
  Event.enter ntype ::
    (readTransactions db.threadtranscontent (db.ntypeoffsetend ntype)
      (db.ntypeoffsetbase ntype)).zipIdx.map fun transaction =>
        Event.insert ntype transaction.2 (Scan.itemsOf transaction.1)

/-- What is done for a part of the work. -/
def work (j : Fin tiles.merge.mergedworknum) : List Event :=
  (tiles.masks j).flatMap (maskEvents db)

/-- Before the parallel loop. -/
def scanStart : Scan where
  arena := tiles.hot.arena
  fastRightsibTable _ _ _ := none
  rightsibBackpatchStack _ := []
  globalNodenum := Function.update (fun _ _ => 0) 0 tiles.hot.globalNodenum
  threadworkload := Function.update (fun _ => []) 0 tiles.hot.threadworkload

/-- The parallel loop of `scan2_DB`: the parts of the work are done by threads, in any order of
their steps. -/
def scan2DB (null : Nat → Nat → Bool) (thread : Nat → Nat)
    (run : List (Fin tiles.merge.mergedworknum × Event)) : Option Scan :=
  run.foldlM (fun s event =>
    Scan.step db.numHotItem tiles.hot.hashtable null (thread event.1) event.2 s) tiles.scanStart

end Tiles

/-- One entry of the table is set. -/
theorem Scan.backpatch_table (thread ntype : Nat) (x : Int) (child : Nat) (s : Scan)
    (thread' ntype' : Nat) (y : Int) :
    (s.backpatch thread ntype x child).fastRightsibTable thread' ntype' y =
      if thread' = thread ∧ ntype' = ntype ∧ y = x then some child
      else s.fastRightsibTable thread' ntype' y := by
  unfold Scan.backpatch
  dsimp only
  by_cases first : thread' = thread
  · rw [first, Function.update_self]
    by_cases second : ntype' = ntype
    · rw [second, Function.update_self]
      by_cases third : y = x
      · rw [third, Function.update_self]
        simp
      · rw [Function.update_of_ne third]
        simp [third]
    · rw [Function.update_of_ne second]
      simp [second]
  · rw [Function.update_of_ne first]
    simp [first]

/-! ### The steps for a mask -/

/-- What has been written as transactions is read as transactions. -/
theorem readTransactions_eq (content : Nat → Nat) (transactions : List (List Nat)) (pos : Nat)
    (stands : (List.range' pos (wordsOf transactions).length).map content = wordsOf transactions) :
    readTransactions content (pos + (wordsOf transactions).length) pos = transactions := by
  induction transactions generalizing pos with
  | nil =>
    rw [readTransactions, if_neg]
    simp [wordsOf]
  | cons transaction rest ih =>
    have words : wordsOf (transaction :: rest) =
        transaction.length :: (transaction ++ wordsOf rest) := by
      simp [wordsOf]
    rw [words] at stands ⊢
    rw [List.length_cons, List.length_append, List.range'_succ, List.map_cons,
      ← List.range'_append_1, List.map_append] at stands
    obtain ⟨has, stands⟩ := List.cons.inj stands
    obtain ⟨here, behind⟩ := List.append_inj stands (by simp)
    rw [readTransactions, if_pos (by simp)]
    dsimp only
    rw [has, here]
    have size : pos + (transaction.length :: (transaction ++ wordsOf rest)).length =
        pos + 1 + transaction.length + (wordsOf rest).length := by
      rw [List.length_cons, List.length_append]
      omega
    rw [size, ih _ behind]

namespace Tiles

variable {db : Tiled} {tiles : Tiles} {sorthresh : Nat}

/-- The transactions of a mask are inserted in the order in which they stand. -/
theorem maskEvents_eq {ntype : Nat} (known : ntype < hotNodeNum) :
    maskEvents db ntype = Event.enter ntype ::
      (db.transactions ntype).zipIdx.map fun transaction =>
        Event.insert ntype transaction.2 (Scan.itemsOf transaction.1) := by
  unfold maskEvents
  have stands := db.region ntype known
  rw [db.measured ntype known] at stands
  have size : db.ntypeoffsetend ntype =
      db.ntypeoffsetbase ntype + (wordsOf (db.transactions ntype)).length := by
    rw [← db.measured ntype known]
    rfl
  rw [size, readTransactions_eq _ _ _ stands]

/-- The events of a mask have the mask. -/
theorem ntype_of_maskEvents {ntype : Nat} {event : Event} (member : event ∈ maskEvents db ntype) :
    event.ntype = ntype := by
  rcases List.mem_cons.mp member with rfl | member
  · rfl
  · obtain ⟨transaction, -, rfl⟩ := List.mem_map.mp member
    rfl

/-- What is known of the tiles. -/
structure Ready (db : Tiled) (tiles : Tiles) : Prop where
  /-- The nodes of the masks are there. -/
  hot : tiles.hot = db.hotNodes
  /-- No mask is in two parts of the work. -/
  nodup : ((List.range tiles.merge.mergedworknum).flatMap tiles.masks).Nodup
  /-- The masks that have transactions are in a part. -/
  useful : ∀ ntype, ntype ∈ (List.range tiles.merge.mergedworknum).flatMap tiles.masks ↔
    db.transactions ntype ≠ []

/-- A mask is in one part. -/
theorem Ready.unique (ready : tiles.Ready db) {j j' : Fin tiles.merge.mergedworknum} {ntype : Nat}
    (member : ntype ∈ tiles.masks j) (member' : ntype ∈ tiles.masks j') : j = j' := by
  have apart : ∀ j j' : Fin tiles.merge.mergedworknum, j < j' →
      List.Disjoint (tiles.masks j) (tiles.masks j') := by
    intro j j' less
    have pairs := List.pairwise_iff_getElem.mp (List.nodup_flatMap.mp ready.nodup).2 j j'
      (by simp) (by simp) less
    simp only [List.getElem_range] at pairs
    exact pairs
  rcases lt_trichotomy j j' with less | same | less
  · exact absurd member' (apart j j' less member)
  · exact same
  · exact absurd member (apart j' j less member')

/-- A mask of a part has transactions. -/
theorem Ready.known (ready : tiles.Ready db) {j : Fin tiles.merge.mergedworknum} {ntype : Nat}
    (member : ntype ∈ tiles.masks j) : db.transactions ntype ≠ [] :=
  (ready.useful ntype).mp (List.mem_flatMap.mpr ⟨j, List.mem_range.mpr j.isLt, member⟩)

/-- The steps of a run for a mask are the steps for the mask, in their order. -/
theorem Ready.filter_run (ready : tiles.Ready db)
    {run : List (Fin tiles.merge.mergedworknum × Event)}
    (interleaves : Interleaves run (tiles.work db)) {j : Fin tiles.merge.mergedworknum}
    {ntype : Nat} (member : ntype ∈ tiles.masks j) :
    (run.filter fun step => step.2.ntype = ntype).map Prod.snd = maskEvents db ntype := by
  have same : (run.filter fun step => step.2.ntype = ntype) =
      (run.filter fun step => step.1 = j).filter fun step => step.2.ntype = ntype := by
    rw [List.filter_filter]
    refine List.filter_congr fun step known => ?_
    by_cases here : step.2.ntype = ntype
    · have inside := interleaves.mem known
      obtain ⟨ntype', member', event⟩ := List.mem_flatMap.mp inside
      have mask := ntype_of_maskEvents event
      rw [here] at mask
      have part : step.1 = j := ready.unique (mask ▸ member') member
      simp [here, part]
    · simp [here]
  have pick : ∀ list : List Nat, list.Nodup → ntype ∈ list →
      (list.flatMap (maskEvents db)).filter (fun event => event.ntype = ntype) =
        maskEvents db ntype := by
    have whole : ∀ ntype' : Nat, (maskEvents db ntype').filter (fun event => event.ntype = ntype) =
        if ntype' = ntype then maskEvents db ntype' else [] := by
      intro ntype'
      split
      · rename_i here
        refine List.filter_eq_self.mpr fun event known => ?_
        rw [ntype_of_maskEvents known, here]
        exact decide_eq_true rfl
      · rename_i other
        refine List.filter_eq_nil_iff.mpr fun event known => ?_
        rw [ntype_of_maskEvents known]
        simp [other]
    intro list
    induction list with
    | nil => exact fun _ none => nomatch none
    | cons first list ih =>
      intro nodup inside
      obtain ⟨fresh, nodup⟩ := List.nodup_cons.mp nodup
      rw [List.flatMap_cons, List.filter_append, whole]
      by_cases here : first = ntype
      · subst here
        have rest :
            (list.flatMap (maskEvents db)).filter (fun event => event.ntype = first) = [] := by
          refine List.filter_eq_nil_iff.mpr fun event known => ?_
          obtain ⟨ntype', member', event'⟩ := List.mem_flatMap.mp known
          rw [ntype_of_maskEvents event']
          have other : ntype' ≠ first := fun same => fresh (same ▸ member')
          simp [other]
        rw [if_pos rfl, rest, List.append_nil]
      · rw [if_neg here, List.nil_append]
        exact ih nodup ((List.mem_cons.mp inside).resolve_left (Ne.symm here))
  rw [same]
  show ((run.filter fun step => step.1 = j).filter
    ((fun event : Event => decide (event.ntype = ntype)) ∘ Prod.snd)).map Prod.snd = _
  rw [← List.filter_map, interleaves j]
  refine pick _ ?_ member
  exact (List.nodup_flatMap.mp ready.nodup).1 j (List.mem_range.mpr j.isLt)

end Tiles

/-! ### The nodes during the scan -/

section Run

variable {db : Tiled} {tiles : Tiles} {null : Nat → Nat → Bool} {thread : Nat → Nat}
  {s s' : Scan} {word : Nat → Nat × List Int}

/-- The transactions that have been inserted. -/
def entriesOf (run : List (Fin tiles.merge.mergedworknum × Event)) : List (Nat × List Int × Nat) :=
  run.filterMap fun step =>
    match step.2 with
    | .enter _ => none
    | .insert ntype _ compact => some (ntype, compact, 1)

/-- What `scan2_DB` relies on: the table of a thread knows the children of the nodes of its first
masks. -/
structure Scanned (tiles : Tiles) (thread : Nat → Nat)
    (pre : List (Fin tiles.merge.mergedworknum × Event)) (s : Scan)
    (word : Nat → Nat × List Int) : Prop where
  /-- The nodes are those of the inserted transactions. -/
  formed : s.arena.Formed word
  counts : s.arena.Counts word (entriesOf pre)
  /-- The nodes of the masks are the roots. -/
  roots : ∀ ntype root, tiles.hot.hashtable ntype = some root →
    root < s.arena.next ∧ word root = (ntype, [])
  /-- The table. -/
  table : ∀ j : Fin tiles.merge.mergedworknum, ∀ ntype ∈ tiles.masks j,
    ntype < fastRightsibTableSize → ∀ root, tiles.hot.hashtable ntype = some root →
      ∀ x, s.fastRightsibTable (thread j) ntype x = s.arena.child root x

/-- A transaction is inserted as a new word, when `temp` is not null where a child fits. -/
theorem Scanned.insert (ready : tiles.Ready db) (null : Nat → Nat → Bool) (k : Nat)
    {pre : List (Fin tiles.merge.mergedworknum × Event)} (scanned : Scanned tiles thread pre s word)
    {j : Fin tiles.merge.mergedworknum} {ntype root : Nat} {compact : List Int}
    (member : ntype ∈ tiles.masks j) (found : tiles.hot.hashtable ntype = some root)
    (some : compact ≠ [])
    (fine : fastRightsibTableSize ≤ ntype → null ntype k = true →
      ∀ x ∈ compact.head?, s.arena.child root x = none) :
    ∃ word', Scanned tiles thread (pre ++ [(j, .insert ntype k compact)])
      (s.insertTransaction (thread j) ntype (null ntype k) root compact) word' := by
  obtain ⟨formed, counts, roots, table⟩ := scanned
  obtain ⟨inside, path⟩ := roots ntype root found
  have entries : entriesOf (pre ++ [(j, .insert ntype k compact)]) =
      entriesOf pre ++ [(ntype, compact, 1)] := by
    unfold entriesOf
    rw [List.filterMap_append]
    rfl
  -- what the new word leaves when the table is set for its first item, or as it was
  have grown : ∀ (arena' : Arena Int Nat) (word' : Nat → Nat × List Int)
      (table' : Nat → Nat → Int → Option Nat),
      Arena.Inserted s.arena arena' word word' (entriesOf pre) ntype compact 1 →
      (∀ thread' ntype' x, ¬(ntype' = ntype ∧ compact.head? = Option.some x) →
        table' thread' ntype' x = s.fastRightsibTable thread' ntype' x) →
      (ntype < fastRightsibTableSize → ∀ x ∈ compact.head?,
        table' (thread j) ntype x = arena'.child root x) →
      arena'.Formed word' ∧ arena'.Counts word' (entriesOf pre ++ [(ntype, compact, 1)]) ∧
      (∀ ntype root, tiles.hot.hashtable ntype = Option.some root →
        root < arena'.next ∧ word' root = (ntype, [])) ∧
      ∀ j : Fin tiles.merge.mergedworknum, ∀ ntype ∈ tiles.masks j,
        ntype < fastRightsibTableSize → ∀ root, tiles.hot.hashtable ntype = Option.some root →
          ∀ x, table' (thread j) ntype x = arena'.child root x := by
    intro arena' word' table' inserted others first
    refine ⟨inserted.formed, inserted.counts, ?_, ?_⟩
    · intro ntype' root' found'
      obtain ⟨inside', path'⟩ := roots ntype' root' found'
      exact ⟨inside'.trans_le inserted.grows, (inserted.old root' inside').trans path'⟩
    · intro j' ntype' member' small root' found' x
      obtain ⟨inside', path'⟩ := roots ntype' root' found'
      by_cases here : ntype' = ntype ∧ compact.head? = Option.some x
      · obtain ⟨rfl, head⟩ := here
        obtain rfl := ready.unique member' member
        obtain rfl := Option.some.inj (found.symm.trans found')
        exact first small x head
      · rw [others _ _ _ here, table j' ntype' member' small root' found' x,
          (inserted.child formed inside' path' x).2 here]
  obtain ⟨x, rest, rfl⟩ := List.exists_cons_of_ne_nil some
  unfold Scan.insertTransaction
  split
  · rename_i small
    dsimp only
    have entry := table j ntype member small root found x
    cases known : s.fastRightsibTable (thread j) ntype x with
    | none =>
      have missing : ∀ y ∈ (x :: rest).head?, s.arena.child root y = none := by
        intro y head
        obtain rfl : x = y := Option.some.inj head
        exact entry.symm.trans known
      obtain ⟨word', inserted, child⟩ := formed.hang_root counts inside path 1 missing
      have set_ := Scan.backpatch_table (thread j) ntype x s.arena.next
        (s.extend (thread j) (s.arena, root, x :: rest))
      obtain ⟨formed', counts', roots', table'⟩ := grown _ word' _ inserted
        (fun thread' ntype' y other => (set_ thread' ntype' y).trans (if_neg fun same =>
          other ⟨same.2.1, congrArg Option.some same.2.2.symm⟩))
        (by
          intro _ y head
          obtain rfl : x = y := Option.some.inj head
          exact (set_ _ _ _).trans ((if_pos ⟨rfl, rfl, rfl⟩).trans (child x rfl).symm))
      exact ⟨word', formed', entries ▸ counts', roots', table'⟩
    | some child =>
      rw [known] at entry
      obtain ⟨word', inserted⟩ := formed.insert counts inside path 1 (x :: rest)
      refine ⟨word', ?_⟩
      dsimp only
      obtain ⟨formed', counts', roots', table'⟩ := grown _ word' s.fastRightsibTable inserted
        (fun _ _ _ _ => rfl) (by
          intro _ y head
          obtain rfl : x = y := Option.some.inj head
          rw [known]
          exact ((inserted.child formed inside path x).1 child entry.symm).symm)
      rw [Arena.insert_cons entry.symm] at formed' counts' roots' table'
      exact ⟨formed', entries ▸ counts', roots', table'⟩
  · rename_i large
    have big : fastRightsibTableSize ≤ ntype := Nat.le_of_not_lt large
    obtain ⟨word', inserted⟩ := formed.insert counts inside path 1 (x :: rest)
    obtain ⟨formed', counts', roots', table'⟩ := grown _ word' s.fastRightsibTable inserted
      (fun _ _ _ _ => rfl) (fun small => absurd small large)
    refine ⟨word', ?_⟩
    split
    · rename_i stale
      rw [Arena.insert_eq_hang (fine big stale)] at formed' counts' roots' table'
      exact ⟨formed', entries ▸ counts', roots', table'⟩
    · exact ⟨formed', entries ▸ counts', roots', table'⟩

/-- What holds also when branches are doubled: all nodes that are known are there. -/
structure Sane (tiles : Tiles) (s : Scan) : Prop where
  closed : s.arena.Closed
  roots : ∀ ntype root, tiles.hot.hashtable ntype = some root → root < s.arena.next
  table : ∀ thread ntype x c, s.fastRightsibTable thread ntype x = some c → c < s.arena.next

/-- A transaction of a later mask leaves the name of its first item below the node of the mask. -/
theorem Sane.insert (sane : Sane tiles s) (thread : Nat) (null : Bool) (compact : List Int)
    {ntype root : Nat} (found : tiles.hot.hashtable ntype = some root) :
    Sane tiles (s.insertTransaction thread ntype null root compact) ∧
      s.arena.Grows (s.insertTransaction thread ntype null root compact).arena ∧
      (fastRightsibTableSize ≤ ntype → ∀ x ∈ compact.head?,
        x ∈ (s.insertTransaction thread ntype null root compact).arena.labels root) := by
  obtain ⟨closed, roots, table⟩ := sane
  have inside := roots ntype root found
  unfold Scan.insertTransaction
  split
  · rename_i small
    split
    · exact ⟨⟨closed, roots, table⟩, Arena.Grows.refl _, fun big => absurd small (not_lt.mpr big)⟩
    · rename_i x rest
      split
      · obtain ⟨closed', grows, first⟩ : (s.arena.hang 1 root (x :: rest)).Closed ∧ _ :=
          Arena.grows_hang closed inside (x :: rest)
        refine ⟨⟨closed', fun ntype' root' found' =>
          (roots ntype' root' found').trans_le grows.next,
          fun thread' ntype' y c entry => ?_⟩, grows, fun big => absurd small (not_lt.mpr big)⟩
        rw [Scan.backpatch_table] at entry
        split at entry
        · obtain rfl := Option.some.inj entry
          exact (Nat.lt_succ_self _).trans_le (first x rfl).next
        · exact (table thread' ntype' y c entry).trans_le grows.next
      · rename_i child entry
        have below := table thread ntype x child entry
        obtain ⟨closed', grows⟩ : (s.arena.addWeight 1 child).Closed ∧ _ :=
          Arena.grows_addWeight closed
        obtain ⟨closed'', grows', -⟩ :
            ((s.arena.addWeight 1 child).insert 1 child rest).Closed ∧ _ :=
          Arena.grows_insert closed' (below.trans_le grows.next) rest
        have all := grows.trans grows'
        exact ⟨⟨closed'', fun ntype' root' found' => (roots ntype' root' found').trans_le all.next,
          fun thread' ntype' y c entry' =>
            (table thread' ntype' y c entry').trans_le all.next⟩, all,
          fun big => absurd small (not_lt.mpr big)⟩
  split
  · obtain ⟨closed', grows, first⟩ : (s.arena.hang 1 root compact).Closed ∧ _ :=
      Arena.grows_hang closed inside compact
    refine ⟨⟨closed', fun ntype' root' found' => (roots ntype' root' found').trans_le grows.next,
      fun thread' ntype' y c entry => (table thread' ntype' y c entry).trans_le grows.next⟩, grows,
      fun _ x head => ?_⟩
    refine ((first x head).labels root (inside.trans (Nat.lt_succ_self _))).subset ?_
    exact (Arena.labels_append closed inside).2.2.symm.subset List.mem_cons_self
  · obtain ⟨closed', grows, first⟩ : (s.arena.insert 1 root compact).Closed ∧ _ :=
      Arena.grows_insert closed inside compact
    exact ⟨⟨closed', fun ntype' root' found' => (roots ntype' root' found').trans_le grows.next,
      fun thread' ntype' y c entry => (table thread' ntype' y c entry).trans_le grows.next⟩, grows,
      fun _ => first⟩

variable (db null thread) in
/-- Every step of a run has a result, and no name of a child is lost. -/
theorem Sane.run {run : List (Fin tiles.merge.mergedworknum × Event)}
    (rooted : ∀ step ∈ run, ∃ root, tiles.hot.hashtable step.2.ntype = some root)
    (sane : Sane tiles s) :
    ∃ s', run.foldlM (fun s event => Scan.step db.numHotItem tiles.hot.hashtable null
        (thread event.1) event.2 s) s = some s' ∧
      Sane tiles s' ∧ s.arena.Grows s'.arena ∧
      ∀ step ∈ run, ∀ ntype k compact, step.2 = .insert ntype k compact →
        fastRightsibTableSize ≤ ntype → ∀ root, tiles.hot.hashtable ntype = some root →
          ∀ x ∈ compact.head?, x ∈ s'.arena.labels root := by
  induction run generalizing s with
  | nil => exact ⟨s, rfl, sane, Arena.Grows.refl _, fun _ none => nomatch none⟩
  | cons first run ih =>
    obtain ⟨j, event⟩ := first
    obtain ⟨root, found⟩ := rooted _ List.mem_cons_self
    obtain ⟨s₁, moves, sane₁, grows₁, names⟩ : ∃ s₁, Scan.step db.numHotItem tiles.hot.hashtable
        null (thread j) event s = some s₁ ∧ Sane tiles s₁ ∧ s.arena.Grows s₁.arena ∧
        ∀ ntype k compact, event = .insert ntype k compact → fastRightsibTableSize ≤ ntype →
          ∀ root, tiles.hot.hashtable ntype = some root →
            ∀ x ∈ compact.head?, x ∈ s₁.arena.labels root := by
      cases event with
      | enter ntype =>
        exact ⟨_, rfl, ⟨sane.closed, sane.roots, sane.table⟩, Arena.Grows.refl _,
          fun _ _ _ other => nomatch other⟩
      | insert ntype k compact =>
        obtain ⟨sane₁, grows₁, names⟩ :=
          sane.insert (thread j) (null ntype k) compact found
        refine ⟨_, ?_, sane₁, grows₁, ?_⟩
        · have entry : tiles.hot.hashtable ntype = some root := found
          unfold Scan.step
          dsimp only
          rw [entry]
          rfl
        · intro ntype' k' compact' same big root' found' x head
          cases same
          obtain rfl : root = root' := Option.some.inj (found.symm.trans found')
          exact names big x head
    obtain ⟨s', rest, sane', grows', names'⟩ :=
      ih (fun step member => rooted step (List.mem_cons_of_mem _ member)) sane₁
    refine ⟨s', ?_, sane', grows₁.trans grows', ?_⟩
    · rw [List.foldlM_cons]
      dsimp only
      rw [moves]
      exact rest
    · intro step member ntype k compact same big root' found' x head
      rcases List.mem_cons.mp member with rfl | member
      · exact (grows'.labels root' (sane₁.roots ntype root' found')).subset
          (names ntype k compact same big root' found' x head)
      · exact names' step member ntype k compact same big root' found' x head

/-- A transaction has the number of its place, and the transactions with smaller numbers have been
inserted before. -/
theorem Tiles.Ready.before (ready : tiles.Ready db)
    {pre post : List (Fin tiles.merge.mergedworknum × Event)}
    {j : Fin tiles.merge.mergedworknum} {ntype k : Nat} {compact : List Int}
    (interleaves : Interleaves (pre ++ (j, .insert ntype k compact) :: post) (tiles.work db)) :
    ntype ∈ tiles.masks j ∧
    (∃ t, (db.transactions ntype)[k]? = some t ∧ compact = Scan.itemsOf t) ∧
    ∀ k' compact', (∃ j', (j', Event.insert ntype k' compact') ∈ pre) ↔
      k' < k ∧ ∃ t, (db.transactions ntype)[k']? = some t ∧ compact' = Scan.itemsOf t := by
  have member : ntype ∈ tiles.masks j := by
    have inside := interleaves.mem (List.mem_append_right pre List.mem_cons_self)
    obtain ⟨ntype', member', event⟩ := List.mem_flatMap.mp inside
    have mask : ntype = ntype' := Tiles.ntype_of_maskEvents event
    rw [mask]
    exact member'
  have order := ready.filter_run interleaves member
  rw [Tiles.maskEvents_eq (Tiled.known_of_transactions (ready.known member)), List.filter_append,
    List.filter_cons_of_pos (by exact decide_eq_true rfl), List.map_append, List.map_cons] at order
  have inserted : ∀ k' compact', (∃ j', (j', Event.insert ntype k' compact') ∈ pre) ↔
      Event.insert ntype k' compact' ∈
        (pre.filter fun step => step.2.ntype = ntype).map Prod.snd := by
    intro k' compact'
    rw [List.mem_map]
    constructor
    · rintro ⟨j', known⟩
      exact ⟨_, List.mem_filter.mpr ⟨known, decide_eq_true rfl⟩, rfl⟩
    · rintro ⟨⟨j', event⟩, known, rfl⟩
      exact ⟨j', (List.mem_filter.mp known).1⟩
  refine ⟨member, ?_⟩
  simp only [inserted]
  generalize (pre.filter fun step => step.2.ntype = ntype).map Prod.snd = earlier at order
  generalize (post.filter fun step => step.2.ntype = ntype).map Prod.snd = later at order
  cases earlier with
  | nil => exact nomatch (List.cons.inj order).1
  | cons first earlier =>
    obtain ⟨rfl, order'⟩ := List.cons.inj order
    have entry : ∀ i, (earlier ++ Event.insert ntype k compact :: later)[i]? =
        (db.transactions ntype)[i]?.map fun t => Event.insert ntype i (Scan.itemsOf t) := by
      intro i
      rw [show earlier ++ Event.insert ntype k compact :: later = _ from order', List.getElem?_map,
        List.getElem?_zipIdx]
      simp [Option.map_map, Function.comp_def]
    have here := entry earlier.length
    rw [List.getElem?_append_right le_rfl, Nat.sub_self, List.getElem?_cons_zero] at here
    obtain ⟨t, stands, same⟩ := Option.map_eq_some_iff.mp here.symm
    obtain ⟨-, rfl, rfl⟩ := Event.insert.inj same
    refine ⟨⟨t, stands, rfl⟩, fun k' compact' => ?_⟩
    constructor
    · intro known
      obtain ⟨i, found⟩ := 
        List.mem_iff_getElem?.mp ((List.mem_cons.mp known).resolve_left (by simp))
      have below : i < earlier.length := (List.getElem?_eq_some_iff.mp found).1
      have place := entry i
      rw [List.getElem?_append_left below, found] at place
      obtain ⟨t', stands', same'⟩ := Option.map_eq_some_iff.mp place.symm
      obtain ⟨-, rfl, rfl⟩ := Event.insert.inj same'
      exact ⟨below, t', stands', rfl⟩
    · rintro ⟨below, t', stands', rfl⟩
      have place := entry k'
      rw [List.getElem?_append_left below, stands'] at place
      exact List.mem_cons_of_mem _ (List.mem_of_getElem? place)

/-- No transaction of a later mask finds `temp` null when an earlier one of its mask begins with the
same item. -/
def Tiled.Separate (db : Tiled) (null : Nat → Nat → Bool) : Prop :=
  ∀ ntype, fastRightsibTableSize ≤ ntype →
    ∀ k t, (db.transactions ntype)[k]? = some t → null ntype k = true →
      ∀ k' < k, ∀ t', (db.transactions ntype)[k']? = some t' → t'.head? ≠ t.head?

/-- A run goes through the nodes of the transactions that it has inserted. -/
theorem Scanned.run (ready : tiles.Ready db) (separate : db.Separate null)
    (rooted : ∀ ntype, db.transactions ntype ≠ [] →
      ∃ root, tiles.hot.hashtable ntype = some root)
    {pre post : List (Fin tiles.merge.mergedworknum × Event)}
    (interleaves : Interleaves (pre ++ post) (tiles.work db))
    (scanned : Scanned tiles thread pre s word) :
    ∃ s' word', post.foldlM (fun s event => Scan.step db.numHotItem tiles.hot.hashtable null
        (thread event.1) event.2 s) s = some s' ∧ Scanned tiles thread (pre ++ post) s' word' := by
  induction post generalizing pre s word with
  | nil =>
    rw [List.append_nil]
    exact ⟨s, word, rfl, scanned⟩
  | cons first post ih =>
    obtain ⟨j, event⟩ := first
    obtain ⟨s₁, word₁, moves, scanned₁⟩ : ∃ s₁ word₁, Scan.step db.numHotItem tiles.hot.hashtable
        null (thread j) event s = some s₁ ∧
          Scanned tiles thread (pre ++ [(j, event)]) s₁ word₁ := by
      cases event with
      | enter ntype =>
        have entries : entriesOf (pre ++ [(j, Event.enter ntype)]) = entriesOf pre := by
          unfold entriesOf
          rw [List.filterMap_append]
          exact List.append_nil _
        exact ⟨_, word, rfl, scanned.formed, entries ▸ scanned.counts, scanned.roots, scanned.table⟩
      | insert ntype k compact =>
        obtain ⟨member, ⟨t, stands, rfl⟩, earlier⟩ := ready.before interleaves
        have transactions := ready.known member
        obtain ⟨root, found⟩ := rooted ntype transactions
        have cold : Scan.itemsOf t ≠ [] := by
          have some := db.cold ntype t (List.mem_of_getElem? stands)
          exact fun none => some (List.map_eq_nil_iff.mp none)
        obtain ⟨inside, path⟩ := scanned.roots ntype root found
        obtain ⟨word₁, scanned₁⟩ := scanned.insert ready null k member found cold (by
          intro big stale x head
          by_contra there
          obtain ⟨c, child⟩ := Option.ne_none_iff_exists'.mp there
          obtain ⟨below, same⟩ := (scanned.formed.child_iff inside).mp child
          rw [path, List.nil_append] at same
          obtain ⟨entry, known, mask, begins⟩ := scanned.counts.sound c below (by rw [same]; simp)
          rw [same] at mask begins
          -- an earlier transaction of the mask begins with the same item
          obtain ⟨step, taken, insert_⟩ := List.mem_filterMap.mp known
          obtain ⟨j', event⟩ := step
          cases event with
          | enter other => exact nomatch insert_
          | insert ntype' k' compact' =>
            obtain rfl := Option.some.inj insert_
            obtain rfl : ntype' = ntype := mask
            obtain ⟨less, t', stands', rfl⟩ := (earlier k' compact').mp ⟨j', taken⟩
            refine separate ntype' big k t stands stale k' less t' stands' ?_
            obtain ⟨rest, split_⟩ := begins
            have first : (Scan.itemsOf t').head? = some x := by
              rw [show Scan.itemsOf t' = [x] ++ rest from split_.symm]
              rfl
            unfold Scan.itemsOf at first head
            rw [List.head?_map] at first head
            obtain ⟨item, here, rfl⟩ := Option.map_eq_some_iff.mp first
            obtain ⟨item', here', cast⟩ := Option.map_eq_some_iff.mp head
            rw [here, here', Nat.cast_injective cast])
        refine ⟨_, word₁, ?_, scanned₁⟩
        unfold Scan.step
        dsimp only
        rw [found]
        rfl
    obtain ⟨s', word', rest, scanned'⟩ :=
      ih (by rw [List.append_assoc]; exact interleaves) scanned₁
    refine ⟨s', word', ?_, by rw [List.append_assoc] at scanned'; exact scanned'⟩
    rw [List.foldlM_cons]
    dsimp only
    rw [moves]
    exact rest

/-! ### The first tree -/

/-- Below the node of each mask the first items of each transaction lead to one node, which counts
the transactions that begin with them. -/
def Scan.Counted (db : Tiled) (tiles : Tiles) (s : Scan) : Prop :=
  ∀ ntype, db.transactions ntype ≠ [] → ∃ root, tiles.hot.hashtable ntype = some root ∧
    ∀ w ≠ [],
      (∀ t ∈ db.transactions ntype, w <+: itemsOf t → ∃! a, s.arena.Path root w a) ∧
      ∀ a, s.arena.Path root w a →
        (∃ t ∈ db.transactions ntype, w <+: itemsOf t) ∧
        (s.arena.node a).weight = (db.transactions ntype).countP fun t => w <+: itemsOf t

/-- What a step adds to the count for a word. -/
def Event.amount (ntype : Nat) (w : List Int) : Event → Nat
  | .enter _ => 0
  | .insert ntype' _ compact => if ntype' = ntype ∧ w <+: compact then 1 else 0

/-- The weight of a word in a run is the sum over the events of its mask. -/
theorem weightOf_entriesOf (run : List (Fin tiles.merge.mergedworknum × Event)) (ntype : Nat)
    (w : List Int) : Arena.weightOf (entriesOf run) ntype w =
      (((run.filter fun step => step.2.ntype = ntype).map Prod.snd).map
        (Event.amount ntype w)).sum := by
  induction run with
  | nil => rfl
  | cons first run ih =>
    obtain ⟨j, event⟩ := first
    cases event with
    | enter ntype' =>
      have same : entriesOf ((j, Event.enter ntype') :: run) = entriesOf run := rfl
      rw [same, ih]
      by_cases here : ntype' = ntype
      · rw [List.filter_cons_of_pos (by exact decide_eq_true here)]
        simp [Event.amount]
      · rw [List.filter_cons_of_neg (by exact fun holds => here (of_decide_eq_true holds))]
    | insert ntype' k compact =>
      have more : entriesOf ((j, Event.insert ntype' k compact) :: run) =
          (ntype', compact, 1) :: entriesOf run := rfl
      have sum : Arena.weightOf ((ntype', compact, 1) :: entriesOf run) ntype w =
          (if ntype' = ntype ∧ w <+: compact then 1 else 0) +
            Arena.weightOf (entriesOf run) ntype w := rfl
      rw [more, sum, ih]
      by_cases here : ntype' = ntype
      · rw [List.filter_cons_of_pos (by exact decide_eq_true here)]
        simp [Event.amount]
      · rw [List.filter_cons_of_neg (by exact fun holds => here (of_decide_eq_true holds))]
        simp [here]

/-- At the end the counts are those of the transactions of a mask. -/
theorem Tiles.Ready.weightOf (ready : tiles.Ready db)
    {run : List (Fin tiles.merge.mergedworknum × Event)}
    (interleaves : Interleaves run (tiles.work db)) {j : Fin tiles.merge.mergedworknum}
    {ntype : Nat} (member : ntype ∈ tiles.masks j) (w : List Int) :
    Arena.weightOf (entriesOf run) ntype w =
      (db.transactions ntype).countP fun t => w <+: Scan.itemsOf t := by
  have count : ∀ list : List (List Nat),
      (list.map fun t => if w <+: Scan.itemsOf t then 1 else 0).sum =
        list.countP fun t => w <+: Scan.itemsOf t := by
    intro list
    induction list with
    | nil => rfl
    | cons t list ih =>
      rw [List.map_cons, List.sum_cons, ih, List.countP_cons, Nat.add_comm]
      simp
  rw [weightOf_entriesOf, ready.filter_run interleaves member,
    Tiles.maskEvents_eq (Tiled.known_of_transactions (ready.known member)), List.map_cons,
    List.sum_cons, List.map_map, ← count]
  have first : (db.transactions ntype).zipIdx.map (Event.amount ntype w ∘ fun transaction =>
        Event.insert ntype transaction.2 (Scan.itemsOf transaction.1)) =
      ((db.transactions ntype).zipIdx.map Prod.fst).map fun t =>
        if w <+: Scan.itemsOf t then 1 else 0 := by
    rw [List.map_map]
    refine List.map_congr_left fun transaction _ => ?_
    simp [Event.amount]
  rw [first, List.zipIdx_map_fst]
  exact Nat.zero_add _

/-- A run inserts the transactions of a mask, each with the number of its place. -/
theorem Tiles.Ready.mem_run (ready : tiles.Ready db)
    {run : List (Fin tiles.merge.mergedworknum × Event)}
    (interleaves : Interleaves run (tiles.work db)) {j : Fin tiles.merge.mergedworknum}
    {ntype : Nat} (member : ntype ∈ tiles.masks j) (k : Nat) (compact : List Int) :
    (∃ j', (j', Event.insert ntype k compact) ∈ run) ↔
      ∃ t, (db.transactions ntype)[k]? = some t ∧ compact = Scan.itemsOf t := by
  have steps := ready.filter_run interleaves member
  rw [Tiles.maskEvents_eq (Tiled.known_of_transactions (ready.known member))] at steps
  constructor
  · rintro ⟨j', known⟩
    have inside : Event.insert ntype k compact ∈
        (run.filter fun step => step.2.ntype = ntype).map Prod.snd :=
      List.mem_map_of_mem (f := Prod.snd) (List.mem_filter.mpr ⟨known, decide_eq_true rfl⟩)
    rw [steps] at inside
    obtain ⟨⟨t, k'⟩, stands, same⟩ :=
      List.mem_map.mp ((List.mem_cons.mp inside).resolve_left (by simp))
    obtain ⟨-, rfl, rfl⟩ := Event.insert.inj same
    exact ⟨t, List.mk_mem_zipIdx_iff_getElem?.mp stands, rfl⟩
  · rintro ⟨t, stands, rfl⟩
    have inside : Event.insert ntype k (Scan.itemsOf t) ∈ Event.enter ntype ::
        (db.transactions ntype).zipIdx.map fun transaction =>
          Event.insert ntype transaction.2 (Scan.itemsOf transaction.1) :=
      List.mem_cons_of_mem _
        (List.mem_map.mpr ⟨(t, k), List.mk_mem_zipIdx_iff_getElem?.mpr stands, rfl⟩)
    rw [← steps] at inside
    obtain ⟨⟨j', event⟩, known', rfl⟩ := List.mem_map.mp inside
    exact ⟨j', (List.mem_filter.mp known').1⟩

/-- There is a node for each mask that has transactions. -/
theorem Tiles.Ready.rooted (ready : tiles.Ready db) (ntype : Nat)
    (present : db.transactions ntype ≠ []) : ∃ root, tiles.hot.hashtable ntype = some root := by
  obtain ⟨word, treated⟩ := Tiled.hotNodes_spec db
  rw [ready.hot]
  refine treated.made ntype ?_ (db.counted ntype present)
  rcases Nat.eq_zero_or_pos ntype with zero | positive
  · exact .inl zero
  · exact .inr ⟨positive, db.mask_lt ntype present⟩

/-- Before the scan no node has children. -/
theorem Tiles.Ready.scanned (ready : tiles.Ready db) (thread : Nat → Nat) :
    ∃ word, Scanned tiles thread [] tiles.scanStart word := by
  obtain ⟨word, treated⟩ := Tiled.hotNodes_spec db
  have empty : ∀ a < tiles.hot.arena.next, (word a).2 = [] := by
    rw [ready.hot]
    exact fun a below => (treated.roots a below).1
  have formed : tiles.hot.arena.Formed word := ready.hot ▸ treated.formed
  have roots : ∀ ntype root, tiles.hot.hashtable ntype = some root →
      root < tiles.hot.arena.next ∧ word root = (ntype, []) := by
    rw [ready.hot]
    exact treated.table
  refine ⟨word, formed, ⟨?_, ?_, ?_⟩, roots, ?_⟩
  · exact fun a below some => absurd (empty a below) some
  · exact fun entry none => nomatch none
  · exact fun a below some => absurd (empty a below) some
  · intro j ntype _ _ root found x
    obtain ⟨inside, path⟩ := roots ntype root found
    cases child : tiles.scanStart.arena.child root x with
    | none => rfl
    | some c =>
      obtain ⟨below, same⟩ := (formed.child_iff inside).mp child
      have none := empty c below
      rw [same] at none
      simp at none

/-- The start of the scan is sane. -/
theorem Tiles.Ready.sane (ready : tiles.Ready db) : Sane tiles tiles.scanStart := by
  obtain ⟨word, formed, -, roots, -⟩ := ready.scanned (fun _ => 0)
  exact ⟨fun a inside c member => (formed.child a inside c member).1,
    fun ntype root found => (roots ntype root found).1, fun _ _ _ _ none => nomatch none⟩

variable (db) (sorthresh : Nat)

end Run

section Sample

end Sample

end P3arsec.Freqmine
