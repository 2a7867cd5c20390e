import P3arsec.Facesim.AssemblyCorrect
import P3arsec.Lib.Blocks

/-!
# The threading auxiliary structures

`Update_Threading_Auxiliary_Structures` lists for each partition the edges inside of it, the edges
that leave it and the tetrahedrons that touch it, all in common arrays with a range for each
partition. The edges of a tetrahedron are looked up among the edges at a node, which each edge
inside of a partition is entered at with both ends and each other one with its first end only.
-/

namespace P3arsec.Facesim

open P3arsec.Lib

variable {N T m : Nat}

/-- The neighbors of the nodes in two groups, and `extended_edges` with its ranges. -/
structure EdgeLists (N m : Nat) where
  internalHigherNeighbors : Fin N → List (Fin N)
  externalNeighbors : Fin N → List (Fin N)
  extendedEdges : List (Fin N × Fin N)
  internalEdgeRanges : Fin m → Nat × Nat
  externalEdgeRanges : Fin m → Nat × Nat

/-- `extended_tetrahedrons` with the arrays beside it. -/
structure TetrahedronLists (N T m : Nat) where
  extendedTetrahedrons : List (Fin 4 → Fin N)
  extendedTetrahedronParents : List (Fin T)
  extendedTetrahedronExtendedEdges : List (List Nat)
  extendedTetrahedronRanges : Fin m → Nat × Nat

/-- An edge is entered at a node. -/
def enterAt (incident : Fin N → List Nat) (i : Fin N) (e : Nat) : Fin N → List Nat :=
  Function.update incident i (incident i ++ [e])

namespace EdgeLists

variable (lists : EdgeLists N m)

/-- An edge inside of a partition is entered at both ends. -/
def enterInternal (incident : Fin N → List Nat) (e : Nat) : Fin N → List Nat :=
  match entry lists.extendedEdges e with
  | some (m, n) => enterAt (enterAt incident m e) n e
  | none => incident

/-- An edge that leaves a partition is entered at its first end. -/
def enterExternal (incident : Fin N → List Nat) (e : Nat) : Fin N → List Nat :=
  match entry lists.extendedEdges e with
  | some (m, _) => enterAt incident m e
  | none => incident

/-- The edges of a partition are entered. -/
def enterEdges (incident : Fin N → List Nat) (p : Fin m) : Fin N → List Nat :=
  let incident := (indices (lists.internalEdgeRanges p)).foldl lists.enterInternal incident
  (indices (lists.externalEdgeRanges p)).foldl lists.enterExternal incident

/-- `incident_extended_edges`. -/
def incidentExtendedEdges : Fin N → List Nat :=
  (List.finRange m).foldl lists.enterEdges fun _ => []

/-- `Extended_Segment`. -/
def extendedSegment (incident : Fin N → List Nat) (i j : Fin N) : Nat :=
  ((incident i).find? fun e =>
    match entry lists.extendedEdges e with
    | some (m, n) => decide (m = j ∨ n = j)
    | none => false).getD 0

end EdgeLists

namespace TetrahedronMesh

variable (mesh : TetrahedronMesh N T)

/-- A neighbor goes into one of the two groups, or into none. -/
def groupNeighbor (range : Nat × Nat) (i : Fin N) (lists : EdgeLists N m) (j : Fin N) :
    EdgeLists N m :=
  if ¬InRange range j then
    { lists with
      externalNeighbors :=
        Function.update lists.externalNeighbors i (lists.externalNeighbors i ++ [j]) }
  else if i < j then
    { lists with
      internalHigherNeighbors :=
        Function.update lists.internalHigherNeighbors i (lists.internalHigherNeighbors i ++ [j]) }
  else lists

/-- The two groups of a node are filled and sorted. -/
def groupNeighbors (range : Nat × Nat) (lists : EdgeLists N m) (i : Fin N) : EdgeLists N m :=
  let lists := (mesh.neighborNodes i).foldl (groupNeighbor range i) lists
  { lists with
    internalHigherNeighbors :=
      Function.update lists.internalHigherNeighbors i (lists.internalHigherNeighbors i).mergeSort
    externalNeighbors :=
      Function.update lists.externalNeighbors i (lists.externalNeighbors i).mergeSort }

/-- `extended_edges` gets the edges from the nodes of a range to what `neighbors` has for them. -/
def appendEdges (range : Nat × Nat) (neighbors : Fin N → List (Fin N))
    (edges : List (Fin N × Fin N)) : List (Fin N × Fin N) :=
  (nodes N range).foldl (fun edges i =>
    (neighbors i).foldl (fun edges j => edges ++ [(i, j)]) edges) edges

variable (ranges : Fin m → Nat × Nat)

/-- The edges of a partition are listed. -/
def listEdges (lists : EdgeLists N m) (p : Fin m) : EdgeLists N m :=
  let lists := (nodes N (ranges p)).foldl (mesh.groupNeighbors (ranges p)) lists
  let edges := appendEdges (ranges p) lists.internalHigherNeighbors lists.extendedEdges
  let edges' := appendEdges (ranges p) lists.externalNeighbors edges
  { lists with
    extendedEdges := edges'
    internalEdgeRanges := Function.update lists.internalEdgeRanges p
      (lists.extendedEdges.length + 1, edges.length)
    externalEdgeRanges := Function.update lists.externalEdgeRanges p
      (edges.length + 1, edges'.length) }

/-- The edges of all partitions. -/
def edgeLists : EdgeLists N m :=
  (List.finRange m).foldl (mesh.listEdges ranges)
    ⟨fun _ => [], fun _ => [], [], fun _ => (0, 0), fun _ => (0, 0)⟩

/-- The number of an edge of a tetrahedron that touches a partition. -/
def edgeNumber (lists : EdgeLists N m) (incident : Fin N → List Nat) (range : Nat × Nat)
    (vertex : Fin 4 → Fin N) (pair : Fin 4 × Fin 4) : Nat :=
  if InRange range (vertex pair.1) then
    lists.extendedSegment incident (vertex pair.1) (vertex pair.2)
  else if InRange range (vertex pair.2) then
    lists.extendedSegment incident (vertex pair.2) (vertex pair.1)
  else 0

/-- A tetrahedron at a node is listed, unless it was at an earlier node of the range. -/
def listTetrahedron (lists : EdgeLists N m) (incident : Fin N → List Nat) (range : Nat × Nat)
    (i : Fin N) (tets : TetrahedronLists N T m) (t : Fin T) : TetrahedronLists N T m :=
  let vertex := mesh.tetrahedrons t
  if ∃ v, range.1 ≤ (vertex v : Nat) + 1 ∧ vertex v < i then tets
  else
    { tets with
      extendedTetrahedrons := tets.extendedTetrahedrons ++ [vertex]
      extendedTetrahedronParents := tets.extendedTetrahedronParents ++ [t]
      extendedTetrahedronExtendedEdges := tets.extendedTetrahedronExtendedEdges ++
        [vertexPairs.map (edgeNumber lists incident range vertex)] }

/-- The tetrahedrons of a partition are listed. -/
def listTetrahedrons (lists : EdgeLists N m) (incident : Fin N → List Nat)
    (tets : TetrahedronLists N T m) (p : Fin m) : TetrahedronLists N T m :=
  let first := tets.extendedTetrahedrons.length + 1
  let tets := (nodes N (ranges p)).foldl (fun tets i =>
    (mesh.incidentTetrahedrons i).foldl (mesh.listTetrahedron lists incident (ranges p) i) tets)
    tets
  { tets with
    extendedTetrahedronRanges := Function.update tets.extendedTetrahedronRanges p
      (first, tets.extendedTetrahedrons.length) }

/-- `Update_Threading_Auxiliary_Structures`. -/
def updateThreadingAuxiliaryStructures : EdgeLists N m × TetrahedronLists N T m :=
  let lists := mesh.edgeLists ranges
  let incident := lists.incidentExtendedEdges
  (lists, (List.finRange m).foldl (mesh.listTetrahedrons ranges lists incident)
    ⟨[], [], [], fun _ => (0, 0)⟩)

end TetrahedronMesh

namespace TetrahedronMesh

variable {mesh : TetrahedronMesh N T} {ranges : Fin m → Nat × Nat} {range : Nat × Nat}
variable {lists : EdgeLists N m} {i j : Fin N} {p : Fin m}

section Groups

/-- The loop over the neighbors of a node enters each of them into the list of its group. -/
theorem foldl_groupNeighbor (neighbors : List (Fin N)) (lists : EdgeLists N m) :
    neighbors.foldl (groupNeighbor range i) lists =
      { lists with
        internalHigherNeighbors := Function.update lists.internalHigherNeighbors i
          (lists.internalHigherNeighbors i ++ neighbors.filter fun j => InRange range j ∧ i < j)
        externalNeighbors := Function.update lists.externalNeighbors i
          (lists.externalNeighbors i ++ neighbors.filter fun j => ¬InRange range j) } := by
  induction neighbors generalizing lists with
  | nil => simp
  | cons j neighbors ih =>
    rw [List.foldl_cons, ih, groupNeighbor]
    by_cases inside : InRange range j
    · have external : (j :: neighbors).filter (fun j => ¬InRange range j) =
          neighbors.filter fun j => ¬InRange range j :=
        List.filter_cons_of_neg fun outside => of_decide_eq_true outside inside
      rw [if_neg (not_not_intro inside), external]
      by_cases higher : i < j
      · have internal : (j :: neighbors).filter (fun j => InRange range j ∧ i < j) =
            j :: neighbors.filter fun j => InRange range j ∧ i < j :=
          List.filter_cons_of_pos (decide_eq_true ⟨inside, higher⟩)
        rw [if_pos higher, internal]
        simp only [Function.update_self, Function.update_idem, List.append_assoc,
          List.singleton_append]
      · have internal : (j :: neighbors).filter (fun j => InRange range j ∧ i < j) =
            neighbors.filter fun j => InRange range j ∧ i < j :=
          List.filter_cons_of_neg fun both => higher (of_decide_eq_true both).2
        rw [if_neg higher, internal]
    · have internal : (j :: neighbors).filter (fun j => InRange range j ∧ i < j) =
          neighbors.filter fun j => InRange range j ∧ i < j :=
        List.filter_cons_of_neg fun both => inside (of_decide_eq_true both).1
      have external : (j :: neighbors).filter (fun j => ¬InRange range j) =
          j :: neighbors.filter fun j => ¬InRange range j :=
        List.filter_cons_of_pos (decide_eq_true inside)
      rw [if_pos inside, internal, external]
      simp only [Function.update_self, Function.update_idem, List.append_assoc,
        List.singleton_append]

/-- The groups of a node are filled and sorted. -/
def Grouped (mesh : TetrahedronMesh N T) (range : Nat × Nat) (i : Fin N) (lists : EdgeLists N m) :
    Prop :=
  lists.internalHigherNeighbors i =
      ((mesh.neighborNodes i).filter fun j => InRange range j ∧ i < j).mergeSort ∧
    lists.externalNeighbors i =
      ((mesh.neighborNodes i).filter fun j => ¬InRange range j).mergeSort

/-- The groups of a node are empty. -/
def Fresh (i : Fin N) (lists : EdgeLists N m) : Prop :=
  lists.internalHigherNeighbors i = [] ∧ lists.externalNeighbors i = []

/-- The neighbors of a node are grouped. -/
theorem groupNeighbors_grouped (fresh : Fresh i lists) :
    mesh.Grouped range i (mesh.groupNeighbors range lists i) := by
  simp only [Grouped, groupNeighbors, foldl_groupNeighbor, Function.update_self, fresh.1, fresh.2,
    List.nil_append, and_self]

/-- The groups of other nodes stay. -/
theorem groupNeighbors_other (mesh : TetrahedronMesh N T) (range : Nat × Nat)
    (lists : EdgeLists N m) (apart : j ≠ i) :
    (mesh.groupNeighbors range lists i).internalHigherNeighbors j =
        lists.internalHigherNeighbors j ∧
      (mesh.groupNeighbors range lists i).externalNeighbors j = lists.externalNeighbors j := by
  simp only [groupNeighbors, foldl_groupNeighbor, Function.update_of_ne apart, and_self]

/-- The groups of the nodes of a range. The arrays do not change, and neither do other groups. -/
theorem foldl_groupNeighbors (mesh : TetrahedronMesh N T) (lists : EdgeLists N m)
    (range : Nat × Nat) (fresh : ∀ i, InRange range i → Fresh i lists) :
    let lists' := (nodes N range).foldl (mesh.groupNeighbors range) lists
    (∀ i, InRange range i → mesh.Grouped range i lists') ∧
      lists'.extendedEdges = lists.extendedEdges ∧
      lists'.internalEdgeRanges = lists.internalEdgeRanges ∧
      lists'.externalEdgeRanges = lists.externalEdgeRanges ∧
      ∀ j, ¬InRange range j → Fresh j lists → Fresh j lists' := by
  have loop := foldl_forEach (mesh.groupNeighbors range)
    (fun lists' : EdgeLists N m => lists'.extendedEdges = lists.extendedEdges ∧
      lists'.internalEdgeRanges = lists.internalEdgeRanges ∧
      lists'.externalEdgeRanges = lists.externalEdgeRanges ∧
      ∀ j, ¬InRange range j → Fresh j lists → Fresh j lists')
    Fresh (mesh.Grouped range) (nodes N range) (nodup_nodes range) ?_ ?_ ?_ lists
    ⟨rfl, rfl, rfl, fun _ _ fresh => fresh⟩ (fun i member => fresh i (mem_nodes.mp member))
  · obtain ⟨⟨edges, internal, external, others⟩, grouped⟩ := loop
    exact ⟨fun i inside => grouped i (mem_nodes.mpr inside), edges, internal, external, others⟩
  · rintro state i member ⟨edges, internal, external, others⟩ fresh
    refine ⟨⟨?_, ?_, ?_, ?_⟩, groupNeighbors_grouped fresh⟩
    · simp only [groupNeighbors, foldl_groupNeighbor, edges]
    · simp only [groupNeighbors, foldl_groupNeighbor, internal]
    · simp only [groupNeighbors, foldl_groupNeighbor, external]
    · intro j outside empty
      have apart : j ≠ i := by
        rintro rfl
        exact outside (mem_nodes.mp member)
      have same := groupNeighbors_other mesh range state apart
      rw [Fresh, same.1, same.2]
      exact others j outside empty
  · intro state i _ j _ apart _ _ fresh
    have same := groupNeighbors_other mesh range state apart
    rw [Fresh, same.1, same.2]
    exact fresh
  · intro state i _ j _ apart _ _ grouped
    have same := groupNeighbors_other mesh range state apart
    rw [Grouped, same.1, same.2]
    exact grouped

/-- The edges of the nodes of a range are appended in order. -/
theorem appendEdges_eq (range : Nat × Nat) (neighbors : Fin N → List (Fin N))
    (edges : List (Fin N × Fin N)) :
    appendEdges range neighbors edges =
      edges ++ (nodes N range).flatMap fun i => (neighbors i).map (i, ·) := by
  have inner : ∀ i (edges : List (Fin N × Fin N)),
      (neighbors i).foldl (fun edges j => edges ++ [(i, j)]) edges =
        edges ++ (neighbors i).map (i, ·) := by
    intro i edges
    rw [List.foldl_append_eq_append]
    exact congrArg (edges ++ ·) List.map_eq_flatMap.symm
  simp only [appendEdges, inner]
  rw [List.foldl_append_eq_append, List.flatMap_def]

/-- A partition has its blocks of the edges. -/
def EdgesListed (mesh : TetrahedronMesh N T) (ranges : Fin m → Nat × Nat) (p : Fin m)
    (lists : EdgeLists N m) : Prop :=
  BlockAt lists.extendedEdges (lists.internalEdgeRanges p) (mesh.internalEdges (ranges p)) ∧
    BlockAt lists.extendedEdges (lists.externalEdgeRanges p) (mesh.externalEdges (ranges p))

/-- The step of a partition whose nodes have empty groups. -/
theorem listEdges_spec (mesh : TetrahedronMesh N T)
    (fresh : ∀ i, InRange (ranges p) i → Fresh i lists) :
    let lists' := mesh.listEdges ranges lists p
    mesh.EdgesListed ranges p lists' ∧
      (∃ more, lists'.extendedEdges = lists.extendedEdges ++ more) ∧
      (∀ q ≠ p, lists'.internalEdgeRanges q = lists.internalEdgeRanges q ∧
        lists'.externalEdgeRanges q = lists.externalEdgeRanges q) ∧
      ∀ j, ¬InRange (ranges p) j → Fresh j lists → Fresh j lists' := by
  obtain ⟨grouped, edges, internal, external, others⟩ :=
    foldl_groupNeighbors mesh lists (ranges p) fresh
  have first := appendEdges_eq (ranges p)
    ((nodes N (ranges p)).foldl (mesh.groupNeighbors (ranges p)) lists).internalHigherNeighbors
    lists.extendedEdges
  have second := appendEdges_eq (ranges p)
    ((nodes N (ranges p)).foldl (mesh.groupNeighbors (ranges p)) lists).externalNeighbors
    (lists.extendedEdges ++ mesh.internalEdges (ranges p))
  have internalEdges_eq : ((nodes N (ranges p)).flatMap fun i =>
      (((nodes N (ranges p)).foldl (mesh.groupNeighbors (ranges p)) lists).internalHigherNeighbors
        i).map (i, ·)) = mesh.internalEdges (ranges p) := by
    apply List.flatMap_congr
    intro i member
    rw [(grouped i (mem_nodes.mp member)).1]
  have externalEdges_eq : ((nodes N (ranges p)).flatMap fun i =>
      (((nodes N (ranges p)).foldl (mesh.groupNeighbors (ranges p)) lists).externalNeighbors
        i).map (i, ·)) = mesh.externalEdges (ranges p) := by
    apply List.flatMap_congr
    intro i member
    rw [(grouped i (mem_nodes.mp member)).2]
  rw [internalEdges_eq] at first
  rw [externalEdges_eq] at second
  have result : mesh.listEdges ranges lists p =
      { (nodes N (ranges p)).foldl (mesh.groupNeighbors (ranges p)) lists with
        extendedEdges := lists.extendedEdges ++ mesh.internalEdges (ranges p) ++
          mesh.externalEdges (ranges p)
        internalEdgeRanges := Function.update lists.internalEdgeRanges p
          (lists.extendedEdges.length + 1,
            (lists.extendedEdges ++ mesh.internalEdges (ranges p)).length)
        externalEdgeRanges := Function.update lists.externalEdgeRanges p
          ((lists.extendedEdges ++ mesh.internalEdges (ranges p)).length + 1,
            (lists.extendedEdges ++ mesh.internalEdges (ranges p) ++
              mesh.externalEdges (ranges p)).length) } := by
    simp only [listEdges, edges, internal, external, first, second]
  intro lists'
  refine ⟨⟨?_, ?_⟩, ⟨mesh.internalEdges (ranges p) ++ mesh.externalEdges (ranges p), ?_⟩, ?_, ?_⟩
  · simp only [lists', result, Function.update_self]
    exact (blockAt_last _ _).append _
  · simp only [lists', result, Function.update_self]
    exact blockAt_last _ _
  · simp only [lists', result, List.append_assoc]
  · intro q apart
    simp only [lists', result, Function.update_of_ne apart, and_self]
  · intro j outside empty
    simp only [lists', result]
    exact others j outside empty

/-- Each partition has its blocks in the end. -/
theorem edgeLists_listed (splits : Splits N ranges) (p : Fin m) :
    mesh.EdgesListed ranges p (mesh.edgeLists ranges) := by
  have apart : ∀ {p q : Fin m}, q ≠ p → ∀ {i : Fin N}, InRange (ranges q) i →
      ¬InRange (ranges p) i :=
    fun different _ there here => different (splits.unique there here)
  have loop := foldl_forEach (mesh.listEdges ranges) (fun _ : EdgeLists N m => True)
    (fun p lists => ∀ i, InRange (ranges p) i → Fresh i lists) (mesh.EdgesListed ranges)
    (List.finRange m) (List.nodup_finRange m) ?_ ?_ ?_
    ⟨fun _ => [], fun _ => [], [], fun _ => (0, 0), fun _ => (0, 0)⟩ trivial
    (fun _ _ _ _ => ⟨rfl, rfl⟩)
  · exact loop.2 p (List.mem_finRange p)
  · intro state p _ _ fresh
    exact ⟨trivial, (mesh.listEdges_spec fresh).1⟩
  · intro state p _ q _ different _ fresh fresh' i inside
    exact (mesh.listEdges_spec fresh).2.2.2 i (apart different inside) (fresh' i inside)
  · intro state p _ q _ different _ fresh listed
    obtain ⟨-, ⟨more, grows⟩, same, -⟩ := mesh.listEdges_spec fresh
    rw [EdgesListed, (same q different).1, (same q different).2, grows]
    exact ⟨listed.1.append more, listed.2.append more⟩

end Groups

section Incident

/-- What the iterations of a loop add to the entries of a node. -/
theorem mem_foldl {ι : Type*} {step : (Fin N → List Nat) → ι → Fin N → List Nat}
    {adds : ι → Fin N → Nat → Prop}
    (steps : ∀ incident x i e, e ∈ step incident x i ↔ e ∈ incident i ∨ adds x i e)
    (list : List ι) (incident : Fin N → List Nat) (i : Fin N) (e : Nat) :
    e ∈ list.foldl step incident i ↔ e ∈ incident i ∨ ∃ x ∈ list, adds x i e := by
  induction list generalizing incident with
  | nil => simp
  | cons x list ih =>
    rw [List.foldl_cons, ih, steps]
    simp only [List.mem_cons, exists_eq_or_imp]
    exact or_assoc

/-- An edge is entered at one node. -/
theorem mem_enterAt {incident : Fin N → List Nat} {k : Fin N} {e e' : Nat} :
    e' ∈ enterAt incident k e i ↔ e' ∈ incident i ∨ i = k ∧ e' = e := by
  by_cases same : i = k
  · subst same
    simp [enterAt]
  · simp [enterAt, same]

/-- The ends at which an edge inside of a partition is entered. -/
def EndsAt (lists : EdgeLists N m) (e : Nat) (i : Fin N) (e' : Nat) : Prop :=
  e' = e ∧ ∃ a b, entry lists.extendedEdges e = some (a, b) ∧ (a = i ∨ b = i)

/-- The end at which an edge that leaves a partition is entered. -/
def StartsAt (lists : EdgeLists N m) (e : Nat) (i : Fin N) (e' : Nat) : Prop :=
  e' = e ∧ ∃ b, entry lists.extendedEdges e = some (i, b)

/-- An internal edge is entered at both ends. -/
theorem mem_enterInternal (incident : Fin N → List Nat) (e : Nat) (i : Fin N) (e' : Nat) :
    e' ∈ lists.enterInternal incident e i ↔ e' ∈ incident i ∨ EndsAt lists e i e' := by
  unfold EdgeLists.enterInternal EndsAt
  cases known : entry lists.extendedEdges e with
  | none => simp
  | some ends =>
    obtain ⟨a, b⟩ := ends
    simp only [mem_enterAt, Option.some.injEq, Prod.mk.injEq]
    constructor
    · rintro ((old | ⟨rfl, rfl⟩) | ⟨rfl, rfl⟩)
      · exact Or.inl old
      · exact Or.inr ⟨rfl, _, _, ⟨rfl, rfl⟩, Or.inl rfl⟩
      · exact Or.inr ⟨rfl, _, _, ⟨rfl, rfl⟩, Or.inr rfl⟩
    · rintro (old | ⟨rfl, _, _, ⟨rfl, rfl⟩, rfl | rfl⟩)
      · exact Or.inl (Or.inl old)
      · exact Or.inl (Or.inr ⟨rfl, rfl⟩)
      · exact Or.inr ⟨rfl, rfl⟩

/-- An external edge is entered at its start. -/
theorem mem_enterExternal (incident : Fin N → List Nat) (e : Nat) (i : Fin N) (e' : Nat) :
    e' ∈ lists.enterExternal incident e i ↔ e' ∈ incident i ∨ StartsAt lists e i e' := by
  unfold EdgeLists.enterExternal StartsAt
  cases known : entry lists.extendedEdges e with
  | none => simp
  | some ends =>
    obtain ⟨a, b⟩ := ends
    simp only [mem_enterAt, Option.some.injEq, Prod.mk.injEq]
    constructor
    · rintro (old | ⟨rfl, rfl⟩)
      · exact Or.inl old
      · exact Or.inr ⟨rfl, _, rfl, rfl⟩
    · rintro (old | ⟨rfl, _, rfl, -⟩)
      · exact Or.inl old
      · exact Or.inr ⟨rfl, rfl⟩

/-- The edges that are entered at a node. -/
theorem mem_incidentEdges {e : Nat} : e ∈ lists.incidentExtendedEdges i ↔ ∃ p,
    (e ∈ indices (lists.internalEdgeRanges p) ∧
      ∃ a b, entry lists.extendedEdges e = some (a, b) ∧ (a = i ∨ b = i)) ∨
    (e ∈ indices (lists.externalEdgeRanges p) ∧
      ∃ b, entry lists.extendedEdges e = some (i, b)) := by
  have steps : ∀ incident p i e, e ∈ lists.enterEdges incident p i ↔ e ∈ incident i ∨
      ((∃ x ∈ indices (lists.internalEdgeRanges p), EndsAt lists x i e) ∨
        ∃ x ∈ indices (lists.externalEdgeRanges p), StartsAt lists x i e) := by
    intro incident p i e
    rw [EdgeLists.enterEdges]
    simp only [mem_foldl mem_enterExternal, mem_foldl mem_enterInternal, or_assoc]
  rw [EdgeLists.incidentExtendedEdges, mem_foldl steps]
  simp only [List.not_mem_nil, List.mem_finRange, true_and, false_or, EndsAt, StartsAt]
  have entered : ∀ (range : List Nat) (ends : Nat → Prop),
      (∃ x ∈ range, e = x ∧ ends x) ↔ e ∈ range ∧ ends e := by
    intro range ends
    constructor
    · rintro ⟨_, member, rfl, at_⟩
      exact ⟨member, at_⟩
    · rintro ⟨member, at_⟩
      exact ⟨e, member, rfl, at_⟩
  exact exists_congr fun p => or_congr (entered _ _) (entered _ _)

/-- The number of an edge that a partition owns. -/
def Owns (lists : EdgeLists N m) (p : Fin m) (e : Nat) : Prop :=
  e ∈ indices (lists.internalEdgeRanges p) ∨ e ∈ indices (lists.externalEdgeRanges p)

/-- The edge from a node of a partition to a neighbor is entered at the node. -/
theorem exists_incident (listed : ∀ p, mesh.EdgesListed ranges p lists)
    (inside : InRange (ranges p) i) (neighbor : j ∈ mesh.neighborNodes i) :
    ∃ e ∈ lists.incidentExtendedEdges i, entry lists.extendedEdges e = some (i, j) ∨
      entry lists.extendedEdges e = some (j, i) := by
  simp only [mem_incidentEdges]
  by_cases within : InRange (ranges p) j
  · rcases lt_or_gt_of_ne (mesh.neighbor_ne neighbor) with below | above
    · have edge : (i, j) ∈ mesh.internalEdges (ranges p) :=
        mesh.mem_internalEdges.mpr ⟨inside, within, below, neighbor⟩
      obtain ⟨e, member, known⟩ := (listed p).1.exists_index edge
      exact ⟨e, ⟨p, Or.inl ⟨member, i, j, known, Or.inl rfl⟩⟩, Or.inl known⟩
    · have edge : (j, i) ∈ mesh.internalEdges (ranges p) :=
        mesh.mem_internalEdges.mpr ⟨within, inside, above, mesh.neighbor_symm neighbor⟩
      obtain ⟨e, member, known⟩ := (listed p).1.exists_index edge
      exact ⟨e, ⟨p, Or.inl ⟨member, j, i, known, Or.inr rfl⟩⟩, Or.inr known⟩
  · have edge : (i, j) ∈ mesh.externalEdges (ranges p) :=
      mesh.mem_externalEdges.mpr ⟨inside, within, neighbor⟩
    obtain ⟨e, member, known⟩ := (listed p).2.exists_index edge
    exact ⟨e, ⟨p, Or.inr ⟨member, j, known⟩⟩, Or.inl known⟩

/-- `Extended_Segment` finds the edge from a node of a partition to a neighbor. -/
theorem extendedSegment_spec (splits : Splits N ranges)
    (listed : ∀ p, mesh.EdgesListed ranges p lists) (inside : InRange (ranges p) i)
    (neighbor : j ∈ mesh.neighborNodes i) :
    let e := lists.extendedSegment lists.incidentExtendedEdges i j
    e ≠ 0 ∧ Owns lists p e ∧
      (entry lists.extendedEdges e = some (i, j) ∨ entry lists.extendedEdges e = some (j, i)) := by
  have apart := mesh.neighbor_ne neighbor
  obtain ⟨e₀, member₀, known₀⟩ := exists_incident listed inside neighbor
  unfold EdgeLists.extendedSegment
  cases found : (lists.incidentExtendedEdges i).find? _ with
  | none =>
    have fails := List.find?_eq_none.mp found e₀ member₀
    rcases known₀ with known₀ | known₀ <;> simp [known₀] at fails
  | some e =>
    have passes := List.find?_some found
    obtain ⟨q, ⟨member, a, b, known, ends⟩ | ⟨member, b, known⟩⟩ :=
      mem_incidentEdges.mp (List.mem_of_find?_eq_some found)
    · obtain ⟨positive, element, own, same⟩ := (listed q).1.exists_entry member
      obtain rfl := Option.some.inj (same.symm.trans known)
      obtain ⟨first, second, -, -⟩ := mesh.mem_internalEdges.mp own
      obtain rfl : q = p := by
        rcases ends with rfl | rfl
        · exact splits.unique first inside
        · exact splits.unique second inside
      simp only [known, decide_eq_true_eq] at passes
      refine ⟨positive.ne', Or.inl member, ?_⟩
      simp only [Option.getD_some, known]
      rcases ends with rfl | rfl
      · exact Or.inl (by rw [passes.resolve_left apart])
      · exact Or.inr (by rw [passes.resolve_right apart])
    · obtain ⟨positive, element, own, same⟩ := (listed q).2.exists_entry member
      obtain rfl := Option.some.inj (same.symm.trans known)
      obtain ⟨first, -, -⟩ := mesh.mem_externalEdges.mp own
      obtain rfl := splits.unique first inside
      simp only [known, decide_eq_true_eq] at passes
      refine ⟨positive.ne', Or.inr member, Or.inl ?_⟩
      simp only [Option.getD_some, known]
      rw [passes.resolve_left apart]

end Incident

section Tetrahedrons

variable {incident : Fin N → List Nat}

/-- The three arrays with some more tetrahedrons. -/
def appendTetrahedrons (mesh : TetrahedronMesh N T) (lists : EdgeLists N m)
    (incident : Fin N → List Nat) (range : Nat × Nat) (tets : TetrahedronLists N T m)
    (more : List (Fin T)) : TetrahedronLists N T m :=
  { tets with
    extendedTetrahedrons := tets.extendedTetrahedrons ++ more.map mesh.tetrahedrons
    extendedTetrahedronParents := tets.extendedTetrahedronParents ++ more
    extendedTetrahedronExtendedEdges := tets.extendedTetrahedronExtendedEdges ++ more.map fun t =>
      vertexPairs.map (edgeNumber lists incident range (mesh.tetrahedrons t)) }

/-- The loop over some tetrahedrons lists those that have no earlier node in the range. -/
theorem foldl_listTetrahedron (tets : TetrahedronLists N T m) (list : List (Fin T)) :
    list.foldl (mesh.listTetrahedron lists incident range i) tets =
      mesh.appendTetrahedrons lists incident range tets (list.filter fun t =>
        ¬∃ v, range.1 ≤ (mesh.tetrahedrons t v : Nat) + 1 ∧ mesh.tetrahedrons t v < i) := by
  induction list generalizing tets with
  | nil => simp [appendTetrahedrons]
  | cons t list ih =>
    rw [List.foldl_cons, ih, listTetrahedron]
    by_cases earlier : ∃ v, range.1 ≤ (mesh.tetrahedrons t v : Nat) + 1 ∧
      mesh.tetrahedrons t v < i
    · rw [if_pos earlier, List.filter_cons, if_neg]
      exact fun late => of_decide_eq_true late earlier
    · rw [if_neg earlier, List.filter_cons, if_pos (decide_eq_true earlier)]
      simp only [appendTetrahedrons, List.map_cons, List.append_assoc, List.singleton_append]

/-- The loop over some nodes lists the tetrahedrons of each that have no earlier node in the range.
-/
theorem foldl_listNode (tets : TetrahedronLists N T m) (list : List (Fin N)) :
    list.foldl (fun tets i => (mesh.incidentTetrahedrons i).foldl
        (mesh.listTetrahedron lists incident range i) tets) tets =
      mesh.appendTetrahedrons lists incident range tets (list.flatMap fun i =>
        (mesh.incidentTetrahedrons i).filter fun t =>
          ¬∃ v, range.1 ≤ (mesh.tetrahedrons t v : Nat) + 1 ∧ mesh.tetrahedrons t v < i) := by
  induction list generalizing tets with
  | nil => simp [appendTetrahedrons]
  | cons i list ih =>
    rw [List.foldl_cons, ih, foldl_listTetrahedron, List.flatMap_cons]
    simp only [appendTetrahedrons, List.map_append, List.append_assoc]

/-- A partition has its block in each of the three arrays. -/
def TetrahedronsListed (mesh : TetrahedronMesh N T) (ranges : Fin m → Nat × Nat)
    (lists : EdgeLists N m) (incident : Fin N → List Nat) (p : Fin m)
    (tets : TetrahedronLists N T m) : Prop :=
  BlockAt tets.extendedTetrahedrons (tets.extendedTetrahedronRanges p)
      ((mesh.extendedTetrahedrons (ranges p)).map mesh.tetrahedrons) ∧
    BlockAt tets.extendedTetrahedronParents (tets.extendedTetrahedronRanges p)
      (mesh.extendedTetrahedrons (ranges p)) ∧
    BlockAt tets.extendedTetrahedronExtendedEdges (tets.extendedTetrahedronRanges p)
      ((mesh.extendedTetrahedrons (ranges p)).map fun t =>
        vertexPairs.map (edgeNumber lists incident (ranges p) (mesh.tetrahedrons t)))

/-- The three arrays have one length. -/
def Parallel (tets : TetrahedronLists N T m) : Prop :=
  tets.extendedTetrahedronParents.length = tets.extendedTetrahedrons.length ∧
    tets.extendedTetrahedronExtendedEdges.length = tets.extendedTetrahedrons.length

/-- The loop over the nodes of a range lists each tetrahedron of the range once. -/
theorem listTetrahedrons_eq (tets : TetrahedronLists N T m) :
    mesh.listTetrahedrons ranges lists incident tets p =
      { mesh.appendTetrahedrons lists incident (ranges p) tets
          (mesh.extendedTetrahedrons (ranges p)) with
        extendedTetrahedronRanges := Function.update tets.extendedTetrahedronRanges p
          (tets.extendedTetrahedrons.length + 1,
            (tets.extendedTetrahedrons ++
              (mesh.extendedTetrahedrons (ranges p)).map mesh.tetrahedrons).length) } := by
  rw [listTetrahedrons, foldl_listNode]
  rfl

/-- The tetrahedrons of a range are listed behind the loop. -/
theorem listTetrahedrons_listed {tets : TetrahedronLists N T m} (parallel : Parallel tets) :
    Parallel (mesh.listTetrahedrons ranges lists incident tets p) ∧
      mesh.TetrahedronsListed ranges lists incident p
        (mesh.listTetrahedrons ranges lists incident tets p) := by
  rw [listTetrahedrons_eq]
  refine ⟨⟨?_, ?_⟩, ?_, ?_, ?_⟩
  · simp [appendTetrahedrons, parallel.1]
  · simp [appendTetrahedrons, parallel.2]
  · simp only [appendTetrahedrons, Function.update_self]
    exact blockAt_last _ _
  · have block := blockAt_last tets.extendedTetrahedronParents
      (mesh.extendedTetrahedrons (ranges p))
    simpa [appendTetrahedrons, parallel.1] using block
  · have block := blockAt_last tets.extendedTetrahedronExtendedEdges
      ((mesh.extendedTetrahedrons (ranges p)).map fun t =>
        vertexPairs.map (edgeNumber lists incident (ranges p) (mesh.tetrahedrons t)))
    simpa [appendTetrahedrons, parallel.2] using block

/-- The loop of one range keeps the lists of the others. -/
theorem listTetrahedrons_other {tets : TetrahedronLists N T m} {q : Fin m} (apart : q ≠ p)
    (listed : mesh.TetrahedronsListed ranges lists incident q tets) :
    mesh.TetrahedronsListed ranges lists incident q
      (mesh.listTetrahedrons ranges lists incident tets p) := by
  rw [listTetrahedrons_eq]
  simp only [TetrahedronsListed, appendTetrahedrons, Function.update_of_ne apart]
  exact ⟨listed.1.append _, listed.2.1.append _, listed.2.2.append _⟩

/-- Each partition has its blocks in the end. -/
theorem tetrahedrons_listed (p : Fin m) :
    mesh.TetrahedronsListed ranges lists incident p
      ((List.finRange m).foldl (mesh.listTetrahedrons ranges lists incident)
        ⟨[], [], [], fun _ => (0, 0)⟩) := by
  have loop := foldl_forEach (mesh.listTetrahedrons ranges lists incident) Parallel
    (fun _ _ => True) (mesh.TetrahedronsListed ranges lists incident) (List.finRange m)
    (List.nodup_finRange m) (fun tets p _ parallel _ => listTetrahedrons_listed parallel)
    (fun _ _ _ _ _ _ _ _ _ => trivial)
    (fun tets p _ q _ apart _ _ listed => listTetrahedrons_other apart listed)
    ⟨[], [], [], fun _ => (0, 0)⟩ ⟨rfl, rfl⟩ (fun _ _ => trivial)
  exact loop.2 p (List.mem_finRange p)

end Tetrahedrons

/-- Two nodes with an edge of the mesh between them. -/
def Edge (mesh : TetrahedronMesh N T) (i j : Fin N) : Prop :=
  ∃ t v w, v ≠ w ∧ mesh.tetrahedrons t v = i ∧ mesh.tetrahedrons t w = j

/-- The neighbors of a node are the ends of its edges. -/
theorem mem_neighborNodes_iff : j ∈ mesh.neighborNodes i ↔ mesh.Edge i j := by
  constructor
  · intro neighbor
    obtain ⟨apart, t, v, w, rfl, rfl⟩ := (mesh.mem_neighborNodes i j).mp neighbor
    exact ⟨t, v, w, fun same => apart (congrArg _ same), rfl, rfl⟩
  · rintro ⟨t, v, w, apart, rfl, rfl⟩
    exact mesh.neighbor_of_ne t apart

/-- What the auxiliary structures promise to the partitions. -/
structure Auxiliary (mesh : TetrahedronMesh N T) (ranges : Fin m → Nat × Nat)
    (lists : EdgeLists N m) (tets : TetrahedronLists N T m) : Prop where
  /-- An edge inside of the partition is listed once, with the lower node first. -/
  internal : ∀ p, (slice lists.extendedEdges (lists.internalEdgeRanges p)).Nodup ∧
    ∀ i j, (i, j) ∈ slice lists.extendedEdges (lists.internalEdgeRanges p) ↔
      InRange (ranges p) i ∧ InRange (ranges p) j ∧ i < j ∧ mesh.Edge i j
  /-- An edge that leaves the partition is listed once, from its own node. -/
  external : ∀ p, (slice lists.extendedEdges (lists.externalEdgeRanges p)).Nodup ∧
    ∀ i j, (i, j) ∈ slice lists.extendedEdges (lists.externalEdgeRanges p) ↔
      InRange (ranges p) i ∧ ¬InRange (ranges p) j ∧ mesh.Edge i j
  /-- A tetrahedron is listed once where the partition owns a vertex, and only there. -/
  tetrahedrons : ∀ p,
    (slice tets.extendedTetrahedronParents (tets.extendedTetrahedronRanges p)).Nodup ∧
    (∀ t, t ∈ slice tets.extendedTetrahedronParents (tets.extendedTetrahedronRanges p) ↔
      ∃ v, InRange (ranges p) (mesh.tetrahedrons t v)) ∧
    slice tets.extendedTetrahedrons (tets.extendedTetrahedronRanges p) =
      (slice tets.extendedTetrahedronParents (tets.extendedTetrahedronRanges p)).map
        mesh.tetrahedrons
  /-- A pair of vertices with an end in the partition has the number of an edge that the partition
  owns, and another pair has none. -/
  edges : ∀ p, ∀ k ∈ indices (tets.extendedTetrahedronRanges p), ∃ t numbers,
    entry tets.extendedTetrahedronParents k = some t ∧
    entry tets.extendedTetrahedronExtendedEdges k = some numbers ∧
    numbers.length = vertexPairs.length ∧
    ∀ v w e, ((v, w), e) ∈ vertexPairs.zip numbers →
      let i := mesh.tetrahedrons t v
      let j := mesh.tetrahedrons t w
      if InRange (ranges p) i ∨ InRange (ranges p) j then
        e ≠ 0 ∧ Owns lists p e ∧
          (entry lists.extendedEdges e = some (i, j) ∨ entry lists.extendedEdges e = some (j, i))
      else e = 0

/-- The number that is looked up for a pair of vertices. -/
theorem edgeNumber_spec (splits : Splits N ranges)
    (listed : ∀ p, mesh.EdgesListed ranges p lists) (p : Fin m) (t : Fin T) {v w : Fin 4}
    (apart : v ≠ w) :
    let i := mesh.tetrahedrons t v
    let j := mesh.tetrahedrons t w
    let e := edgeNumber lists lists.incidentExtendedEdges (ranges p) (mesh.tetrahedrons t) (v, w)
    if InRange (ranges p) i ∨ InRange (ranges p) j then
      e ≠ 0 ∧ Owns lists p e ∧
        (entry lists.extendedEdges e = some (i, j) ∨ entry lists.extendedEdges e = some (j, i))
    else e = 0 := by
  intro i j e
  have neighbor : j ∈ mesh.neighborNodes i := mesh.neighbor_of_ne t apart
  simp only [e, edgeNumber]
  by_cases first : InRange (ranges p) i
  · rw [if_pos (Or.inl first), if_pos first]
    exact extendedSegment_spec splits listed first neighbor
  · by_cases second : InRange (ranges p) j
    · rw [if_pos (Or.inr second), if_neg first, if_pos second]
      obtain ⟨positive, own, ends⟩ :=
        extendedSegment_spec splits listed second (mesh.neighbor_symm neighbor)
      exact ⟨positive, own, ends.symm⟩
    · rw [if_neg (not_or.mpr ⟨first, second⟩), if_neg first, if_neg second]

/-- The pairs of vertices are of different vertices. -/
theorem vertexPairs_ne : ∀ pair ∈ vertexPairs, pair.1 ≠ pair.2 := by decide

end TetrahedronMesh

/-- For every mesh and every ranges that split the nodes, the threading auxiliary structures keep
their promise. -/
theorem updateThreadingAuxiliaryStructures_correct (mesh : TetrahedronMesh N T)
    (ranges : Fin m → Nat × Nat) (splits : TetrahedronMesh.Splits N ranges) :
    let result := mesh.updateThreadingAuxiliaryStructures ranges
    mesh.Auxiliary ranges result.1 result.2 := by
  intro result
  have listed : ∀ p, mesh.EdgesListed ranges p result.1 := TetrahedronMesh.edgeLists_listed splits
  have blocks : ∀ p, mesh.TetrahedronsListed ranges result.1 result.1.incidentExtendedEdges p
      result.2 := TetrahedronMesh.tetrahedrons_listed
  constructor
  · intro p
    rw [(listed p).1.slice_eq]
    refine ⟨(List.nodup_append.mp (mesh.nodup_extendedEdges (ranges p))).1, fun i j => ?_⟩
    rw [mesh.mem_internalEdges, TetrahedronMesh.mem_neighborNodes_iff]
  · intro p
    rw [(listed p).2.slice_eq]
    refine ⟨(List.nodup_append.mp (mesh.nodup_extendedEdges (ranges p))).2.1, fun i j => ?_⟩
    rw [mesh.mem_externalEdges, TetrahedronMesh.mem_neighborNodes_iff]
  · intro p
    rw [(blocks p).2.1.slice_eq, (blocks p).1.slice_eq]
    exact ⟨mesh.nodup_extendedTetrahedrons _, fun t => mesh.mem_extendedTetrahedrons, rfl⟩
  · intro p k inside
    obtain ⟨-, t, member, parent⟩ := (blocks p).2.1.exists_entry inside
    have same := (blocks p).2.1.entry_eq inside
    have numbers := (blocks p).2.2.entry_eq inside
    rw [List.getElem?_map, ← same, parent] at numbers
    refine ⟨t, _, parent, numbers, List.length_map _, ?_⟩
    intro v w e pair
    rw [← List.map_prod_left_eq_zip] at pair
    obtain ⟨⟨v', w'⟩, known, pair⟩ := List.mem_map.mp pair
    obtain ⟨rfl, rfl, rfl⟩ : v' = v ∧ w' = w ∧ _ = e := by
      obtain ⟨vertices, number⟩ := Prod.mk.inj pair
      obtain ⟨first, second⟩ := Prod.mk.inj vertices
      exact ⟨first, second, number⟩
    exact TetrahedronMesh.edgeNumber_spec splits listed p t
      (TetrahedronMesh.vertexPairs_ne _ known)

/-- The lists of two ranges of a small mesh. -/
theorem updateThreadingAuxiliaryStructures_correct_sample :
    let result := sampleMesh.updateThreadingAuxiliaryStructures sampleRanges
    sampleMesh.Auxiliary sampleRanges result.1 result.2 :=
  updateThreadingAuxiliaryStructures_correct sampleMesh sampleRanges sampleRanges_splits

end P3arsec.Facesim
