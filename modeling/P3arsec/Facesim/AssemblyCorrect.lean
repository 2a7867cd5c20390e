import P3arsec.Facesim.Assembly

/-!
# The parallel assembly against the serial one

Each node and each copy of an edge belongs to one partition, which meets all tetrahedrons that touch
it. Both versions leave in an edge the sum of the blocks of all tetrahedrons for its two nodes, in
the order in which they name them. The blocks for the two orders are each other's transposes, so the
force differential does not depend on the order.
-/

namespace P3arsec.Facesim

open P3arsec.Lib

variable {K : Type*} [Field K] {N T m : Nat}

/-- The nodes of a range. -/
theorem mem_nodes {range : Nat × Nat} {i : Fin N} :
    i ∈ nodes N range ↔ TetrahedronMesh.InRange range i := by
  simp [nodes, TetrahedronMesh.InRange]

/-- A search finds the only element that passes the test. -/
theorem find?_eq_some_of_unique {ι : Type*} {list : List ι} {test : ι → Bool} {found : ι}
    (member : found ∈ list) (passes : test found = true)
    (unique : ∀ other ∈ list, test other = true → other = found) :
    list.find? test = some found := by
  cases result : list.find? test with
  | none => exact absurd passes (List.find?_eq_none.mp result found member)
  | some other =>
    rw [unique other (List.mem_of_find?_eq_some result) (List.find?_some result)]

namespace TetrahedronMesh

variable (mesh : TetrahedronMesh N T)

section Vertices

/-- The index of a vertex is found. -/
theorem vertexIndex_vertex (t : Fin T) (v : Fin 4) :
    mesh.vertexIndex t (mesh.tetrahedrons t v) = some v := by
  refine find?_eq_some_of_unique (List.mem_finRange v) (decide_eq_true rfl) ?_
  intro other _ same
  exact (mesh.distinct t (of_decide_eq_true same)).symm

/-- A node that is no vertex has no index. -/
theorem vertexIndex_eq_none {t : Fin T} {i : Fin N} (missing : ¬∃ v, mesh.tetrahedrons t v = i) :
    mesh.vertexIndex t i = none := by
  refine List.find?_eq_none.mpr fun v _ same => missing ⟨v, ?_⟩
  exact (of_decide_eq_true same).symm

variable (material : Material K T)

/-- A tetrahedron adds nothing to an edge that it does not have. -/
theorem edgeBlock_eq_zero {t : Fin T} {e : Fin N × Fin N}
    (missing : ¬((∃ v, mesh.tetrahedrons t v = e.1) ∧ ∃ w, mesh.tetrahedrons t w = e.2)) :
    mesh.edgeBlock material t e = 0 := by
  rcases not_and_or.mp missing with first | second
  · simp [edgeBlock, mesh.vertexIndex_eq_none first]
  · cases found : mesh.vertexIndex t e.1 <;>
      simp [edgeBlock, found, mesh.vertexIndex_eq_none second]

variable {material}

/-- The blocks for the two orders of an edge. -/
theorem edgeBlock_swap (symmetric : ∀ t a b, material.dFdX t b a = (material.dFdX t a b).transpose)
    (t : Fin T) (i j : Fin N) :
    mesh.edgeBlock material t (j, i) = (mesh.edgeBlock material t (i, j)).transpose := by
  cases first : mesh.vertexIndex t i with
  | none => cases second : mesh.vertexIndex t j <;> simp [edgeBlock, first, second]
  | some a =>
    cases second : mesh.vertexIndex t j with
    | none => simp [edgeBlock, first, second]
    | some b => simpa [edgeBlock, first, second] using symmetric t a b

/-- No node is a neighbor of itself. -/
theorem neighbor_ne {i j : Fin N} (neighbor : j ∈ mesh.neighborNodes i) : i ≠ j :=
  ((mesh.mem_neighborNodes i j).mp neighbor).1

/-- Neighbors are neighbors of each other. -/
theorem neighbor_symm {i j : Fin N} (neighbor : j ∈ mesh.neighborNodes i) :
    i ∈ mesh.neighborNodes j := by
  obtain ⟨apart, t, v, w, first, second⟩ := (mesh.mem_neighborNodes i j).mp neighbor
  exact (mesh.mem_neighborNodes j i).mpr ⟨apart.symm, t, w, v, second, first⟩

/-- Two vertices of a tetrahedron are neighbors. -/
theorem neighbor_of_ne (t : Fin T) {v w : Fin 4} (apart : v ≠ w) :
    mesh.tetrahedrons t w ∈ mesh.neighborNodes (mesh.tetrahedrons t v) :=
  (mesh.mem_neighborNodes _ _).mpr ⟨fun same => apart (mesh.distinct t same), t, v, w, rfl, rfl⟩

end Vertices

section Partition

/-- The tetrahedrons of a partition are those that touch its nodes. -/
theorem mem_extendedTetrahedrons {range : Nat × Nat} {t : Fin T} :
    t ∈ mesh.extendedTetrahedrons range ↔ ∃ v, InRange range (mesh.tetrahedrons t v) := by
  simp only [extendedTetrahedrons, List.mem_flatMap, List.mem_filter, mem_nodes,
    mesh.mem_incidentTetrahedrons, decide_eq_true_eq]
  constructor
  · rintro ⟨_, inside, ⟨v, rfl⟩, _⟩
    exact ⟨v, inside⟩
  · rintro ⟨v, inside⟩
    -- The tetrahedron is listed at the lowest of its nodes in the range.
    obtain ⟨least, chosen, lowest⟩ := Finset.exists_min_image
      (Finset.univ.filter fun v => InRange range (mesh.tetrahedrons t v)) (mesh.tetrahedrons t)
      ⟨v, by simpa using inside⟩
    have here : InRange range (mesh.tetrahedrons t least) := by simpa using chosen
    refine ⟨_, here, ⟨least, rfl⟩, ?_⟩
    rintro ⟨w, above, below⟩
    have order : (mesh.tetrahedrons t w : Nat) < mesh.tetrahedrons t least := below
    have also : InRange range (mesh.tetrahedrons t w) := ⟨above, by omega⟩
    exact absurd below (not_lt.mpr (lowest w (by simpa using also)))

/-- The tetrahedrons of a range are listed once. -/
theorem nodup_extendedTetrahedrons (range : Nat × Nat) :
    (mesh.extendedTetrahedrons range).Nodup := by
  have first : ∀ i j : Fin N, InRange range i → i < j → ∀ t ∈ mesh.incidentTetrahedrons i,
      ∃ v, range.1 ≤ (mesh.tetrahedrons t v : Nat) + 1 ∧ mesh.tetrahedrons t v < j := by
    intro i j inside below t member
    obtain ⟨v, rfl⟩ := (mesh.mem_incidentTetrahedrons i t).mp member
    exact ⟨v, inside.1, below⟩
  refine nodup_flatMap_of_unique (nodup_nodes range)
    (fun i _ => (mesh.nodup_incidentTetrahedrons i).filter _) ?_
  intro i here j there t member also
  obtain ⟨incident, lowest⟩ := List.mem_filter.mp member
  obtain ⟨incident', lowest'⟩ := List.mem_filter.mp also
  rcases lt_trichotomy i j with below | same | above
  · exact absurd (first i j (mem_nodes.mp here) below t incident) (of_decide_eq_true lowest')
  · exact same
  · exact absurd (first j i (mem_nodes.mp there) above t incident') (of_decide_eq_true lowest)

/-- A partition adds up all that counts for one of its nodes. -/
theorem sum_extendedTetrahedrons {μ : Type*} [AddCommMonoid μ] {range : Nat × Nat} {i : Fin N}
    (inside : InRange range i) {amount : Fin T → μ}
    (rest : ∀ t, (¬∃ v, mesh.tetrahedrons t v = i) → amount t = 0) :
    ((mesh.extendedTetrahedrons range).map amount).sum = ∑ t, amount t := by
  refine sum_map_of_nodup (mesh.nodup_extendedTetrahedrons range) fun t outside => rest t ?_
  rintro ⟨v, rfl⟩
  exact outside (mesh.mem_extendedTetrahedrons.mpr ⟨v, inside⟩)

/-- The internal edges of a range have both ends in it. -/
theorem mem_internalEdges {range : Nat × Nat} {e : Fin N × Fin N} :
    e ∈ mesh.internalEdges range ↔
      InRange range e.1 ∧ InRange range e.2 ∧ e.1 < e.2 ∧ e.2 ∈ mesh.neighborNodes e.1 := by
  obtain ⟨i, j⟩ := e
  simp only [internalEdges, List.mem_flatMap, List.mem_map, List.mem_mergeSort, List.mem_filter,
    mem_nodes, decide_eq_true_eq, Prod.mk.injEq]
  constructor
  · rintro ⟨_, inside, _, ⟨neighbor, also, below⟩, rfl, rfl⟩
    exact ⟨inside, also, below, neighbor⟩
  · rintro ⟨inside, also, below, neighbor⟩
    exact ⟨i, inside, j, ⟨neighbor, also, below⟩, rfl, rfl⟩

/-- The external edges of a range leave it. -/
theorem mem_externalEdges {range : Nat × Nat} {e : Fin N × Fin N} :
    e ∈ mesh.externalEdges range ↔
      InRange range e.1 ∧ ¬InRange range e.2 ∧ e.2 ∈ mesh.neighborNodes e.1 := by
  obtain ⟨i, j⟩ := e
  simp only [externalEdges, List.mem_flatMap, List.mem_map, List.mem_mergeSort, List.mem_filter,
    mem_nodes, decide_eq_true_eq, Prod.mk.injEq]
  constructor
  · rintro ⟨_, inside, _, ⟨neighbor, outside⟩, rfl, rfl⟩
    exact ⟨inside, outside, neighbor⟩
  · rintro ⟨inside, outside, neighbor⟩
    exact ⟨i, inside, j, ⟨neighbor, outside⟩, rfl, rfl⟩

/-- The edges of a range: an internal one is listed at its lower end. -/
theorem mem_extendedEdges {range : Nat × Nat} {e : Fin N × Fin N} :
    e ∈ mesh.extendedEdges range ↔ InRange range e.1 ∧ e.2 ∈ mesh.neighborNodes e.1 ∧
      (InRange range e.2 → e.1 < e.2) := by
  rw [extendedEdges, List.mem_append, mem_internalEdges, mem_externalEdges]
  tauto

/-- No partition lists an edge twice. -/
theorem nodup_extendedEdges (range : Nat × Nat) : (mesh.extendedEdges range).Nodup := by
  have tagged : ∀ (inner : Fin N → List (Fin N)), (∀ i, (inner i).Nodup) →
      ((nodes N range).flatMap fun i => (inner i).map (i, ·)).Nodup := by
    intro inner nodup
    refine nodup_flatMap_of_unique (nodup_nodes range)
      (fun i _ => (nodup i).map (Prod.mk_right_injective i)) ?_
    intro i _ j _ e here there
    obtain ⟨_, _, rfl⟩ := List.mem_map.mp here
    obtain ⟨_, _, same⟩ := List.mem_map.mp there
    exact (Prod.mk.inj same).1.symm
  have sorted : ∀ (i : Fin N) (test : Fin N → Bool),
      ((mesh.neighborNodes i).filter test).mergeSort.Nodup := fun i test =>
    (List.mergeSort_perm _ _).nodup_iff.mpr ((mesh.nodup_neighborNodes i).filter test)
  refine List.nodup_append'.mpr ⟨tagged _ fun i => sorted i _, tagged _ fun i => sorted i _, ?_⟩
  intro e internal external
  exact (mesh.mem_externalEdges.mp external).2.1 (mesh.mem_internalEdges.mp internal).2.1

/-- The edges of a partition pair each of its nodes with each neighbour once. -/
theorem count_extendedEdges {range : Nat × Nat} {i : Fin N} (inside : InRange range i)
    (j : Fin N) :
    (mesh.extendedEdges range).count (i, j) + (mesh.extendedEdges range).count (j, i) =
      if j ∈ mesh.neighborNodes i then 1 else 0 := by
  rw [(mesh.nodup_extendedEdges range).count, (mesh.nodup_extendedEdges range).count]
  simp only [mem_extendedEdges]
  by_cases neighbor : j ∈ mesh.neighborNodes i
  · have back := mesh.neighbor_symm neighbor
    have apart := mesh.neighbor_ne neighbor
    by_cases also : InRange range j
    · rcases lt_or_gt_of_ne apart with below | above
      · simp [inside, neighbor, below, below.le.not_gt]
      · simp [neighbor, also, back, above, above.le.not_gt]
    · simp [inside, neighbor, also]
  · have back : i ∉ mesh.neighborNodes j := fun member => neighbor (mesh.neighbor_symm member)
    simp [neighbor, back]

end Partition

section Edges

variable {ranges : Fin m → Nat × Nat}

/-- The range of each node is the range of one partition. -/
def Splits (N : Nat) (ranges : Fin m → Nat × Nat) : Prop :=
  ∀ i : Fin N, ∃! p : Fin m, i ∈ nodes N (ranges p)

omit mesh in
/-- A node is in one range only. -/
theorem Splits.unique (splits : Splits N ranges) {i : Fin N} {p q : Fin m}
    (here : InRange (ranges p) i) (there : InRange (ranges q) i) : p = q :=
  ExistsUnique.unique (splits i) (mem_nodes.mpr here) (mem_nodes.mpr there)

/-- The edges of a partition at one of its nodes. -/
theorem mem_incidentExtendedEdges (splits : Splits N ranges) {p : Fin m} {i : Fin N}
    (inside : InRange (ranges p) i) {e : Fin N × Fin N} :
    e ∈ mesh.incidentExtendedEdges ranges i ↔
      e ∈ mesh.extendedEdges (ranges p) ∧ (e.1 = i ∨ e.2 = i) := by
  simp only [incidentExtendedEdges, List.mem_flatMap, List.mem_finRange, true_and,
    List.mem_append, List.mem_filter, decide_eq_true_eq, mem_internalEdges, mem_externalEdges,
    mem_extendedEdges]
  constructor
  · rintro ⟨q, ⟨⟨first, second, below, near⟩, ends⟩ | ⟨⟨first, outside, near⟩, here⟩⟩
    · obtain rfl : p = q := by
        rcases ends with rfl | rfl
        · exact splits.unique inside first
        · exact splits.unique inside second
      exact ⟨⟨first, near, fun _ => below⟩, ends⟩
    · subst here
      obtain rfl := splits.unique inside first
      exact ⟨⟨first, near, fun also => absurd also outside⟩, .inl rfl⟩
  · rintro ⟨⟨first, near, order⟩, ends⟩
    by_cases second : InRange (ranges p) e.2
    · exact ⟨p, .inl ⟨⟨first, second, order second, near⟩, ends⟩⟩
    · refine ⟨p, .inr ⟨⟨first, second, near⟩, ends.resolve_right ?_⟩⟩
      rintro rfl
      exact second inside

/-- A partition finds its own copy of the edge between one of its nodes and a neighbour. -/
theorem extendedSegment_eq (splits : Splits N ranges) {p : Fin m} {i j : Fin N}
    (inside : InRange (ranges p) i) (apart : i ≠ j) (e : Fin N × Fin N) :
    mesh.extendedSegment ranges i j = some e ↔
      e ∈ mesh.extendedEdges (ranges p) ∧ (e = (i, j) ∨ e = (j, i)) := by
  have ends : ∀ e : Fin N × Fin N, (e.1 = i ∨ e.2 = i) ∧ (e.1 = j ∨ e.2 = j) ↔
      e = (i, j) ∨ e = (j, i) := by
    rintro ⟨a, b⟩
    simp only [Prod.mk.injEq]
    grind
  have matching : ∀ e, e ∈ mesh.incidentExtendedEdges ranges i ∧ (e.1 = j ∨ e.2 = j) ↔
      e ∈ mesh.extendedEdges (ranges p) ∧ (e = (i, j) ∨ e = (j, i)) := by
    intro e
    rw [mesh.mem_incidentExtendedEdges splits inside, and_assoc, ends]
  constructor
  · intro found
    rw [extendedSegment] at found
    have passes := List.find?_some found
    exact (matching e).mp ⟨List.mem_of_find?_eq_some found, of_decide_eq_true passes⟩
  · intro edge
    obtain ⟨member, passes⟩ := (matching e).mpr edge
    refine find?_eq_some_of_unique member (decide_eq_true passes) ?_
    intro other incident also
    have edge' := (matching other).mp ⟨incident, of_decide_eq_true also⟩
    -- Inner edges run upwards and the others leave the range, so only one order is listed.
    obtain ⟨⟨first, _, order⟩, which⟩ := edge.imp_left mesh.mem_extendedEdges.mp
    obtain ⟨⟨first', _, order'⟩, which'⟩ := edge'.imp_left mesh.mem_extendedEdges.mp
    rcases which with rfl | rfl <;> rcases which' with rfl | rfl
    · rfl
    · exact absurd (order first') (lt_asymm (order' first))
    · exact absurd (order first') (lt_asymm (order' first))
    · rfl

/-- The entry of `extended_tetrahedron_extended_edges` for two vertices. -/
theorem extendedTetrahedronEdge_eq (splits : Splits N ranges) (p : Fin m) (t : Fin T)
    {v w : Fin 4} (apart : v ≠ w) (e : Fin N × Fin N) :
    mesh.extendedTetrahedronEdge ranges p t (v, w) = some e ↔
      e ∈ mesh.extendedEdges (ranges p) ∧
        (e = (mesh.tetrahedrons t v, mesh.tetrahedrons t w) ∨
          e = (mesh.tetrahedrons t w, mesh.tetrahedrons t v)) := by
  have other := mesh.neighbor_ne (mesh.neighbor_of_ne t apart)
  by_cases first : InRange (ranges p) (mesh.tetrahedrons t v)
  · rw [extendedTetrahedronEdge, if_pos first]
    exact mesh.extendedSegment_eq splits first other e
  · rw [extendedTetrahedronEdge, if_neg first]
    by_cases second : InRange (ranges p) (mesh.tetrahedrons t w)
    · rw [if_pos second, or_comm]
      exact mesh.extendedSegment_eq splits second other.symm e
    · rw [if_neg second]
      constructor
      · intro none
        cases none
      · rintro ⟨edge, rfl | rfl⟩
        · exact absurd (mesh.mem_extendedEdges.mp edge).1 first
        · exact absurd (mesh.mem_extendedEdges.mp edge).1 second

/-- The assertion of the helper: the nodes of an edge that it adds to are two vertices. -/
theorem extendedTetrahedronEdge_vertices (splits : Splits N ranges) {p : Fin m} {t : Fin T}
    {e : Fin N × Fin N}
    (member : e ∈ vertexPairs.filterMap (mesh.extendedTetrahedronEdge ranges p t)) :
    e ∈ mesh.extendedEdges (ranges p) ∧
      ∃ a b, a ≠ b ∧ mesh.vertexIndex t e.1 = some a ∧ mesh.vertexIndex t e.2 = some b := by
  obtain ⟨⟨v, w⟩, pair, found⟩ := List.mem_filterMap.mp member
  have apart : v ≠ w := by
    have all : ∀ pair ∈ vertexPairs, pair.1 ≠ pair.2 := by decide
    exact all _ pair
  obtain ⟨edge, rfl | rfl⟩ := (mesh.extendedTetrahedronEdge_eq splits p t apart e).mp found
  · exact ⟨edge, v, w, apart, mesh.vertexIndex_vertex t v, mesh.vertexIndex_vertex t w⟩
  · exact ⟨edge, w, v, apart.symm, mesh.vertexIndex_vertex t w, mesh.vertexIndex_vertex t v⟩

end Edges

section Sums

variable {material : Material K T} {ranges : Fin m → Nat × Nat}

/-- What the vertices of all tetrahedrons add to a node. -/
def nodeSum {μ : Type*} [AddCommMonoid μ] (amount : Fin T → Fin 4 → μ) (i : Fin N) : μ :=
  ∑ t, ∑ v, if mesh.tetrahedrons t v = i then amount t v else 0

/-- The stiffness between two nodes. -/
def edgeSum (material : Material K T) (i j : Fin N) : Matrix3 K :=
  ∑ t, mesh.edgeBlock material t (i, j)

/-- The sum of an edge that is turned around is the transpose. -/
theorem edgeSum_swap (symmetric : ∀ t a b, material.dFdX t b a = (material.dFdX t a b).transpose)
    (i j : Fin N) : mesh.edgeSum material j i = (mesh.edgeSum material i j).transpose := by
  rw [edgeSum, edgeSum, Matrix.transpose_sum]
  exact Finset.sum_congr rfl fun t _ => mesh.edgeBlock_swap symmetric t i j

variable {κ μ : Type*} [DecidableEq κ] [AddCommMonoid μ]

/-- What one tetrahedron adds to a node. -/
theorem amountAt_vertices (t : Fin T) {list : List (Fin 4)} (nodup : list.Nodup) {i : Fin N}
    (all : ∀ v, mesh.tetrahedrons t v = i → v ∈ list) {key : Fin N → κ}
    (injective : Function.Injective key) (amount : Fin 4 → μ) :
    amountAt (list.map fun v => (key (mesh.tetrahedrons t v), amount v)) (key i) =
      ∑ v, if mesh.tetrahedrons t v = i then amount v else 0 := by
  rw [amountAt_map]
  simp only [injective.eq_iff]
  exact sum_map_of_nodup nodup fun v outside => if_neg fun here => outside (all v here)

/-- The vertices in a range are listed once. -/
theorem nodup_verticesIn (range : Nat × Nat) (t : Fin T) : (mesh.verticesIn range t).Nodup :=
  (List.nodup_finRange 4).filter _

/-- The vertices of a tetrahedron in a range. -/
theorem mem_verticesIn {range : Nat × Nat} {t : Fin T} {v : Fin 4} :
    v ∈ mesh.verticesIn range t ↔ InRange range (mesh.tetrahedrons t v) := by
  simp [verticesIn]

/-- The serial loop adds to each node the forces of its tetrahedrons. -/
theorem forcesSerial_amount (i : Fin N) :
    amountAt (mesh.forcesSerial material).adds i = mesh.nodeSum material.nodeForces i := by
  rw [forcesSerial, amountAt_flatMap, ← Fin.sum_univ_def]
  exact Finset.sum_congr rfl fun t _ => mesh.amountAt_vertices t (List.nodup_finRange 4)
    (fun v _ => List.mem_finRange v) Function.injective_id _

/-- A helper adds the same to the nodes of its range. -/
theorem forcesHelper_amount {p : Fin m} {i : Fin N} (inside : InRange (ranges p) i) :
    amountAt (mesh.forcesHelper material ranges p).adds i =
      mesh.nodeSum material.nodeForces i := by
  have each : ∀ t, amountAt ((mesh.verticesIn (ranges p) t).map fun v =>
      (mesh.tetrahedrons t v, material.nodeForces t v)) i =
      ∑ v, if mesh.tetrahedrons t v = i then material.nodeForces t v else 0 := by
    intro t
    refine mesh.amountAt_vertices t (mesh.nodup_verticesIn _ t) ?_ Function.injective_id _
    rintro v rfl
    exact mesh.mem_verticesIn.mpr inside
  rw [forcesHelper, amountAt_flatMap]
  simp only [each]
  refine mesh.sum_extendedTetrahedrons inside fun t missing => ?_
  exact Finset.sum_eq_zero fun v _ => if_neg fun here => missing ⟨v, here⟩

omit [AddCommMonoid μ] in
/-- Different nodes have different entries. -/
theorem node_injective : Function.Injective (Entry.node : Fin N → Entry N) :=
  fun _ _ same => Entry.node.inj same

/-- The additions of a tetrahedron to a node in `node_stiffness`, whatever it adds to edges. -/
theorem amountAt_node (t : Fin T) {list : List (Fin 4)} (nodup : list.Nodup)
    (edges : List (Fin N × Fin N)) {i : Fin N}
    (all : ∀ v, mesh.tetrahedrons t v = i → v ∈ list) :
    amountAt ((list.map fun v =>
        (Entry.node (mesh.tetrahedrons t v), symmetricPart (material.dFdX t v v))) ++
      edges.map fun e => (Entry.edge e, mesh.edgeBlock material t e)) (.node i) =
      ∑ v, if mesh.tetrahedrons t v = i then symmetricPart (material.dFdX t v v) else 0 := by
  have apart : amountAt (edges.map fun e => (Entry.edge e, mesh.edgeBlock material t e))
      (.node i) = 0 := by
    apply amountAt_eq_zero
    intro pair member
    obtain ⟨e, -, rfl⟩ := List.mem_map.mp member
    simp
  rw [amountAt_append, apart, add_zero]
  exact mesh.amountAt_vertices t nodup all node_injective fun v =>
    symmetricPart (material.dFdX t v v)

/-- The additions of a tetrahedron to an edge, whatever it adds to nodes. -/
theorem amountAt_edge (t : Fin T) (list : List (Fin 4)) (edges : List (Fin N × Fin N))
    (e : Fin N × Fin N) :
    amountAt ((list.map fun v =>
        (Entry.node (mesh.tetrahedrons t v), symmetricPart (material.dFdX t v v))) ++
      edges.map fun e => (Entry.edge e, mesh.edgeBlock material t e)) (.edge e) =
      edges.count e • mesh.edgeBlock material t e := by
  have apart : amountAt (list.map fun v =>
      (Entry.node (mesh.tetrahedrons t v), symmetricPart (material.dFdX t v v)))
      (.edge e) = 0 := by
    apply amountAt_eq_zero
    intro pair member
    obtain ⟨v, -, rfl⟩ := List.mem_map.mp member
    simp
  rw [amountAt_append, apart, zero_add, amountAt_map]
  induction edges with
  | nil => simp
  | cons first edges ih =>
    rw [List.map_cons, List.sum_cons, ih, List.count_cons, add_nsmul, add_comm]
    by_cases here : first = e
    · subst here
      simp
    · simp [here]

/-- The serial loop adds up the blocks of a node. -/
theorem updateSerial_node (i : Fin N) :
    amountAt (mesh.updateSerial material).adds (.node i) =
      mesh.nodeSum (fun t v => symmetricPart (material.dFdX t v v)) i := by
  rw [updateSerial, amountAt_flatMap, ← Fin.sum_univ_def]
  exact Finset.sum_congr rfl fun t _ =>
    mesh.amountAt_node t (List.nodup_finRange 4) _ fun v _ => List.mem_finRange v

/-- A helper adds up the blocks of the nodes of its range. -/
theorem updateHelper_node {p : Fin m} {i : Fin N} (inside : InRange (ranges p) i) :
    amountAt (mesh.updateHelper material ranges p).adds (.node i) =
      mesh.nodeSum (fun t v => symmetricPart (material.dFdX t v v)) i := by
  rw [updateHelper, amountAt_flatMap]
  have each : ∀ t, amountAt (((mesh.verticesIn (ranges p) t).map fun v =>
      (Entry.node (mesh.tetrahedrons t v), symmetricPart (material.dFdX t v v))) ++
      (vertexPairs.filterMap (mesh.extendedTetrahedronEdge ranges p t)).map fun e =>
        (Entry.edge e, mesh.edgeBlock material t e)) (.node i) =
      ∑ v, if mesh.tetrahedrons t v = i then symmetricPart (material.dFdX t v v) else 0 := by
    intro t
    refine mesh.amountAt_node t (mesh.nodup_verticesIn _ t) _ ?_
    rintro v rfl
    exact mesh.mem_verticesIn.mpr inside
  simp only [each]
  refine mesh.sum_extendedTetrahedrons inside fun t missing => ?_
  exact Finset.sum_eq_zero fun v _ => if_neg fun here => missing ⟨v, here⟩

/-- The serial version adds to a segment the blocks for its two nodes. -/
theorem updateSerial_edge {e : Fin N × Fin N} (segment : e ∈ mesh.segments) :
    amountAt (mesh.updateSerial material).adds (.edge e) = mesh.edgeSum material e.1 e.2 := by
  rw [updateSerial, amountAt_flatMap, ← Fin.sum_univ_def]
  refine Finset.sum_congr rfl fun t _ => ?_
  rw [mesh.amountAt_edge, (mesh.nodup_tetrahedronEdges t).count]
  by_cases here : e ∈ mesh.tetrahedronEdges t
  · rw [if_pos here, one_nsmul]
  · rw [if_neg here, zero_nsmul, mesh.edgeBlock_eq_zero material]
    exact fun ends => here ((mesh.mem_tetrahedronEdges t e).mpr ⟨segment, ends⟩)

/-- Among the pairs of vertices each two vertices are met once. -/
theorem count_vertexPairs (a b : Fin 4) (apart : a ≠ b) :
    vertexPairs.countP (fun pair => pair = (a, b) ∨ pair = (b, a)) = 1 := by
  revert a b
  decide

/-- A helper adds to one of its edges the blocks for its two nodes. -/
theorem updateHelper_edge (splits : Splits N ranges) {p : Fin m} {e : Fin N × Fin N}
    (edge : e ∈ mesh.extendedEdges (ranges p)) :
    amountAt (mesh.updateHelper material ranges p).adds (.edge e) =
      mesh.edgeSum material e.1 e.2 := by
  obtain ⟨inside, neighbor, -⟩ := mesh.mem_extendedEdges.mp edge
  have each : ∀ t, (vertexPairs.filterMap (mesh.extendedTetrahedronEdge ranges p t)).count e •
      mesh.edgeBlock material t e = mesh.edgeBlock material t e := by
    intro t
    by_cases ends : (∃ v, mesh.tetrahedrons t v = e.1) ∧ ∃ w, mesh.tetrahedrons t w = e.2
    · obtain ⟨⟨a, first⟩, b, second⟩ := ends
      have apart : a ≠ b := by
        rintro rfl
        exact mesh.neighbor_ne neighbor (first.symm.trans second)
      have once : (vertexPairs.filterMap (mesh.extendedTetrahedronEdge ranges p t)).count e =
          1 := by
        rw [List.count, List.countP_filterMap, ← count_vertexPairs a b apart]
        apply List.countP_congr
        intro pair member
        have distinct : ∀ pair ∈ vertexPairs, pair.1 ≠ pair.2 := by decide
        have found := mesh.extendedTetrahedronEdge_eq splits p t (distinct pair member) e
        have named : e = (mesh.tetrahedrons t a, mesh.tetrahedrons t b) :=
          Prod.ext first.symm second.symm
        have injective := mesh.distinct t
        have same : mesh.extendedTetrahedronEdge ranges p t pair = some e ↔
            pair = (a, b) ∨ pair = (b, a) := by
          rw [found, and_iff_right edge, named]
          simp only [Prod.ext_iff, injective.eq_iff]
          tauto
        rw [decide_eq_true_iff, ← same]
        cases mesh.extendedTetrahedronEdge ranges p t pair <;> simp
      rw [once, one_nsmul]
    · rw [mesh.edgeBlock_eq_zero material ends, smul_zero]
  rw [updateHelper, amountAt_flatMap]
  simp only [mesh.amountAt_edge, each]
  refine mesh.sum_extendedTetrahedrons inside fun t missing => ?_
  exact mesh.edgeBlock_eq_zero material fun ends => missing ends.1

end Sums

section Differential

variable {material : Material K T} {ranges : Fin m → Nat × Nat} {stiffness : Stiffness K N}

section

-- the instance has a name, so that membership is the same term in all builds
attribute [local instance] lawfulBEq_fin

/-- The force differential of a node. -/
def differentialSum (material : Material K T) (dX : Full K N) (i : Fin N) : TV K :=
  (mesh.nodeSum (fun t v => symmetricPart (material.dFdX t v v)) i).mulVec (dX i) +
    ∑ j, (if j ∈ mesh.neighborNodes i then 1 else 0) •
      (mesh.edgeSum material i j).mulVec (dX j)

end

/-- Each edge at a node adds the stiffness from the other end, in whichever order it is stored. -/
theorem amountAt_edgeDifferential
    (symmetric : ∀ t a b, material.dFdX t b a = (material.dFdX t a b).transpose)
    {edges : List (Fin N × Fin N)}
    (stored : ∀ e ∈ edges, stiffness (.edge e) = mesh.edgeSum material e.1 e.2)
    (dX : Full K N) (i : Fin N) :
    amountAt (edges.flatMap (edgeDifferential stiffness dX)) i =
      ∑ j, (edges.count (i, j) + edges.count (j, i)) •
        (mesh.edgeSum material i j).mulVec (dX j) := by
  have each : ∀ e ∈ edges, amountAt (edgeDifferential stiffness dX e) i =
      (if e.1 = i then (mesh.edgeSum material e.1 e.2).mulVec (dX e.2) else 0) +
        if e.2 = i then (mesh.edgeSum material e.2 e.1).mulVec (dX e.1) else 0 := by
    intro e member
    rw [mesh.edgeSum_swap symmetric e.1 e.2]
    simp [edgeDifferential, amountAt, stored e member]
  rw [amountAt_flatMap, List.map_congr_left each]
  exact sum_pairs_eq edges Finset.univ
    (fun _ _ => ⟨Finset.mem_univ _, Finset.mem_univ _⟩) i fun i j =>
      (mesh.edgeSum material i j).mulVec (dX j)

variable (stored : ∀ i, stiffness (.node i) =
  mesh.nodeSum (fun t v => symmetricPart (material.dFdX t v v)) i)

include stored

/-- The serial loop multiplies the matrix with the vector. -/
theorem differentialSerial_amount
    (symmetric : ∀ t a b, material.dFdX t b a = (material.dFdX t a b).transpose)
    (edges : ∀ e ∈ mesh.segments, stiffness (.edge e) = mesh.edgeSum material e.1 e.2)
    (dX : Full K N) (i : Fin N) :
    amountAt (mesh.differentialSerial stiffness dX).adds i =
      mesh.differentialSum material dX i := by
  rw [differentialSerial, amountAt_append,
    amountAt_of_nodup (List.nodup_finRange N) (List.mem_finRange i) fun v =>
      (stiffness (.node v)).mulVec (dX v),
    mesh.amountAt_edgeDifferential symmetric edges, differentialSum, stored]
  simp only [mesh.count_segments]

/-- A helper does so for the nodes of its range. -/
theorem differentialHelper_amount
    (symmetric : ∀ t a b, material.dFdX t b a = (material.dFdX t a b).transpose) {p : Fin m}
    (edges : ∀ e ∈ mesh.extendedEdges (ranges p),
      stiffness (.edge e) = mesh.edgeSum material e.1 e.2)
    (dX : Full K N) {i : Fin N} (inside : InRange (ranges p) i) :
    amountAt (mesh.differentialHelper ranges stiffness dX p).adds i =
      mesh.differentialSum material dX i := by
  -- An external edge ends at no node of the partition, so its second addition would not count.
  have external : amountAt ((mesh.externalEdges (ranges p)).map fun e =>
      (e.1, (stiffness (.edge e)).mulVec (dX e.2))) i =
      amountAt ((mesh.externalEdges (ranges p)).flatMap (edgeDifferential stiffness dX)) i := by
    rw [amountAt_map, amountAt_flatMap]
    refine congrArg List.sum (List.map_congr_left fun e member => ?_)
    have apart : e.2 ≠ i := by
      rintro rfl
      exact (mesh.mem_externalEdges.mp member).2.1 inside
    simp [edgeDifferential, amountAt, apart]
  have joined : amountAt ((mesh.internalEdges (ranges p)).flatMap
        (edgeDifferential stiffness dX)) i +
      amountAt ((mesh.externalEdges (ranges p)).flatMap (edgeDifferential stiffness dX)) i =
      amountAt ((mesh.extendedEdges (ranges p)).flatMap (edgeDifferential stiffness dX)) i := by
    rw [extendedEdges, List.flatMap_append, amountAt_append]
  rw [differentialHelper, amountAt_append, amountAt_append, external, add_assoc, joined,
    amountAt_of_nodup (nodup_nodes _) (mem_nodes.mpr inside) fun v =>
      (stiffness (.node v)).mulVec (dX v),
    mesh.amountAt_edgeDifferential symmetric edges, differentialSum, stored]
  simp only [mesh.count_extendedEdges inside]

end Differential

section Owners

/-- The node whose partition keeps an entry. -/
def owner : Entry N → Fin N
  | .node i => i
  | .edge e => e.1

variable {material : Material K T} {ranges : Fin m → Nat × Nat}

/-- A helper writes the entries that its range owns. -/
theorem updateHelper_keys (splits : Splits N ranges) {p : Fin m} {entry : Entry N}
    (member : entry ∈ (mesh.updateHelper material ranges p).keys) :
    InRange (ranges p) (owner entry) := by
  rcases Task.mem_keys.mp member with cleared | ⟨pair, added, rfl⟩
  · rcases List.mem_append.mp cleared with node | edge
    · obtain ⟨i, inside, rfl⟩ := List.mem_map.mp node
      exact mem_nodes.mp inside
    · obtain ⟨e, listed, rfl⟩ := List.mem_map.mp edge
      exact (mesh.mem_extendedEdges.mp listed).1
  · obtain ⟨t, -, added⟩ := List.mem_flatMap.mp added
    rcases List.mem_append.mp added with node | edge
    · obtain ⟨v, inside, rfl⟩ := List.mem_map.mp node
      exact mesh.mem_verticesIn.mp inside
    · obtain ⟨e, listed, rfl⟩ := List.mem_map.mp edge
      exact (mesh.mem_extendedEdges.mp
        (mesh.extendedTetrahedronEdge_vertices splits listed).1).1

/-- A helper writes the forces of its range. -/
theorem forcesHelper_keys {p : Fin m} {i : Fin N}
    (member : i ∈ (mesh.forcesHelper material ranges p).keys) : InRange (ranges p) i := by
  obtain ⟨pair, added, rfl⟩ := (Task.mem_keys.mp member).resolve_left List.not_mem_nil
  obtain ⟨t, -, added⟩ := List.mem_flatMap.mp added
  obtain ⟨v, inside, rfl⟩ := List.mem_map.mp added
  exact mesh.mem_verticesIn.mp inside

/-- A helper writes the force differentials of its range. -/
theorem differentialHelper_keys {stiffness : Stiffness K N} {dX : Full K N} {p : Fin m} {i : Fin N}
    (member : i ∈ (mesh.differentialHelper ranges stiffness dX p).keys) :
    InRange (ranges p) i := by
  obtain ⟨pair, added, rfl⟩ := (Task.mem_keys.mp member).resolve_left List.not_mem_nil
  rcases List.mem_append.mp added with added | external
  · rcases List.mem_append.mp added with node | internal
    · obtain ⟨v, inside, rfl⟩ := List.mem_map.mp node
      exact mem_nodes.mp inside
    · obtain ⟨e, edge, part⟩ := List.mem_flatMap.mp internal
      obtain ⟨first, second, -⟩ := mesh.mem_internalEdges.mp edge
      simp only [edgeDifferential, List.mem_cons, List.not_mem_nil, or_false] at part
      rcases part with rfl | rfl
      · exact first
      · exact second
  · obtain ⟨e, edge, rfl⟩ := List.mem_map.mp external
    exact (mesh.mem_externalEdges.mp edge).1

end Owners

section Phases

variable {material : Material K T} {ranges : Fin m → Nat × Nat}

variable (material) in

/-- The stiffness behind the serial loop. -/
theorem updateSerial_run (old : Stiffness K N) :
    (∀ i, (mesh.updateSerial material).run old (.node i) =
        mesh.nodeSum (fun t v => symmetricPart (material.dFdX t v v)) i) ∧
      ∀ e ∈ mesh.segments,
        (mesh.updateSerial material).run old (.edge e) = mesh.edgeSum material e.1 e.2 := by
  constructor
  · intro i
    rw [Task.run_apply, if_pos (by simp [updateSerial]), zero_add, updateSerial_node]
  · intro e segment
    rw [Task.run_apply, if_pos (by simp [updateSerial, segment]), zero_add,
      mesh.updateSerial_edge segment]

/-- Every interleaving of the helpers leaves the stiffness that the tetrahedrons add up to. -/
theorem updateHelper_runs (splits : Splits N ranges) {old stiffness : Stiffness K N}
    (update : Task.Runs (mesh.updateHelper material ranges) old stiffness) :
    (∀ i, stiffness (.node i) =
        mesh.nodeSum (fun t v => symmetricPart (material.dFdX t v v)) i) ∧
      ∀ p, ∀ e ∈ mesh.extendedEdges (ranges p),
        stiffness (.edge e) = mesh.edgeSum material e.1 e.2 := by
  have alone : ∀ (entry : Entry N) {p : Fin m}, InRange (ranges p) (owner entry) →
      ∀ q ≠ p, entry ∉ (mesh.updateHelper material ranges q).keys :=
    fun _ _ inside q apart member =>
      apart (splits.unique (mesh.updateHelper_keys splits member) inside)
  constructor
  · intro i
    obtain ⟨p, inside, -⟩ := splits i
    have here := mem_nodes.mp inside
    rw [update.apply (alone (.node i) here), Task.run_apply,
      if_pos (by simp [updateHelper, inside]), zero_add, mesh.updateHelper_node here]
  · intro p e edge
    have here := (mesh.mem_extendedEdges.mp edge).1
    rw [update.apply (alone (.edge e) here), Task.run_apply,
      if_pos (by simp [updateHelper, edge]), zero_add, mesh.updateHelper_edge splits edge]

/-- The helpers leave the forces of the serial loop, in every order. -/
theorem forcesHelper_runs (splits : Splits N ranges) {F F' : Full K N}
    (forces : Task.Runs (mesh.forcesHelper material ranges) F F') :
    F' = (mesh.forcesSerial material).run F := by
  funext i
  obtain ⟨p, inside, -⟩ := splits i
  have here := mem_nodes.mp inside
  have alone : ∀ q ≠ p, i ∉ (mesh.forcesHelper material ranges q).keys := fun q apart member =>
    apart (splits.unique (mesh.forcesHelper_keys member) here)
  rw [forces.apply alone, Task.run_apply, Task.run_apply, mesh.forcesHelper_amount here,
    mesh.forcesSerial_amount]
  rfl

/-- The helpers leave the force differentials of the serial loop, in every order. -/
theorem differentialHelper_runs
    (symmetric : ∀ t a b, material.dFdX t b a = (material.dFdX t a b).transpose)
    (splits : Splits N ranges) {old stiffness : Stiffness K N}
    (update : Task.Runs (mesh.updateHelper material ranges) old stiffness) {dX dF dF' : Full K N}
    (differential : Task.Runs (mesh.differentialHelper ranges stiffness dX) dF dF')
    (old' : Stiffness K N) :
    dF' = (mesh.differentialSerial ((mesh.updateSerial material).run old') dX).run dF := by
  obtain ⟨nodes, edges⟩ := mesh.updateHelper_runs splits update
  obtain ⟨nodes', edges'⟩ := mesh.updateSerial_run material old'
  funext i
  obtain ⟨p, inside, -⟩ := splits i
  have here := mem_nodes.mp inside
  have alone : ∀ q ≠ p, i ∉ (mesh.differentialHelper ranges stiffness dX q).keys :=
    fun q apart member => apart (splits.unique (mesh.differentialHelper_keys member) here)
  rw [differential.apply alone, Task.run_apply, Task.run_apply,
    mesh.differentialHelper_amount nodes symmetric (edges p) dX here,
    mesh.differentialSerial_amount nodes' symmetric edges' dX i]
  rfl

/-- The three parallel functions, in any interleaving of the partitions, against the serial ones. No
two partitions write the same entry. -/
theorem parallel_eq_serial
    (symmetric : ∀ t a b, material.dFdX t b a = (material.dFdX t a b).transpose)
    (splits : Splits N ranges) {old stiffness : Stiffness K N}
    (update : Task.Runs (mesh.updateHelper material ranges) old stiffness) {F F' : Full K N}
    (forces : Task.Runs (mesh.forcesHelper material ranges) F F') {dX dF dF' : Full K N}
    (differential : Task.Runs (mesh.differentialHelper ranges stiffness dX) dF dF')
    (old' : Stiffness K N) :
    F' = (mesh.forcesSerial material).run F ∧
      dF' = (mesh.differentialSerial ((mesh.updateSerial material).run old') dX).run dF ∧
      ∀ p q, p ≠ q →
        List.Disjoint (mesh.updateHelper material ranges p).keys
            (mesh.updateHelper material ranges q).keys ∧
          List.Disjoint (mesh.forcesHelper material ranges p).keys
            (mesh.forcesHelper material ranges q).keys ∧
          List.Disjoint (mesh.differentialHelper ranges stiffness dX p).keys
            (mesh.differentialHelper ranges stiffness dX q).keys := by
  refine ⟨mesh.forcesHelper_runs splits forces,
    mesh.differentialHelper_runs symmetric splits update differential old', ?_⟩
  intro p q apart
  refine ⟨fun entry here there => ?_, fun i here there => ?_, fun i here there => ?_⟩
  · exact apart (splits.unique (mesh.updateHelper_keys splits here)
      (mesh.updateHelper_keys splits there))
  · exact apart (splits.unique (mesh.forcesHelper_keys here) (mesh.forcesHelper_keys there))
  · exact apart (splits.unique (mesh.differentialHelper_keys here)
      (mesh.differentialHelper_keys there))

end Phases

end TetrahedronMesh

/-- Two tetrahedrons that share a face. -/
def sampleMesh : TetrahedronMesh 5 2 where
  tetrahedrons := ![![0, 1, 2, 3], ![4, 2, 1, 3]]
  distinct := by decide
  neighborNodes := ![[1, 2, 3], [0, 2, 3, 4], [0, 1, 3, 4], [0, 1, 2, 4], [2, 1, 3]]
  nodup_neighborNodes := by decide
  mem_neighborNodes := by decide
  incidentTetrahedrons := ![[0], [0, 1], [0, 1], [0, 1], [1]]
  nodup_incidentTetrahedrons := by decide
  mem_incidentTetrahedrons := by decide
  segments := [(0, 1), (2, 0), (0, 3), (1, 2), (3, 1), (2, 3), (4, 2), (1, 4), (4, 3)]
  count_segments := by decide
  tetrahedronEdges := ![[(0, 1), (2, 0), (0, 3), (1, 2), (3, 1), (2, 3)],
    [(4, 2), (1, 4), (4, 3), (1, 2), (2, 3), (3, 1)]]
  nodup_tetrahedronEdges := by decide
  mem_tetrahedronEdges := by decide

/-- A material whose stress is its strain. -/
def sampleMaterial : Material ℚ 2 where
  dG _ k l := Matrix.of fun i j => if i = k ∧ j = l then 1 else 0
  forces _ := 1

/-- Two ranges that both tetrahedrons reach into. -/
def sampleRanges : Fin 2 → Nat × Nat := ![(1, 2), (3, 5)]

/-- The two ranges split the five nodes. -/
theorem sampleRanges_splits : TetrahedronMesh.Splits 5 sampleRanges := by
  unfold TetrahedronMesh.Splits ExistsUnique
  decide

/-- The helpers of the sample, the second one first. -/
def sampleRun {κ μ : Type*} [DecidableEq κ] [AddCommMonoid μ] (helpers : Fin 2 → Task κ μ) :
    κ → μ :=
  [1, 0].foldl (fun table p => (helpers p).run table) fun _ => 0

/-- One order of the two helpers. -/
theorem sampleRun_runs {κ μ : Type*} [DecidableEq κ] [AddCommMonoid μ]
    (helpers : Fin 2 → Task κ μ) : Task.Runs helpers (fun _ => 0) (sampleRun helpers) :=
  Task.runs_of_order helpers (fun _ => 0) (by decide) (by decide)

/-- The helpers and the serial loop agree on two tetrahedrons. -/
theorem parallel_eq_serial_sample :
    sampleRun (sampleMesh.forcesHelper sampleMaterial sampleRanges) =
        (sampleMesh.forcesSerial sampleMaterial).run (fun _ => 0) ∧
      sampleRun (sampleMesh.differentialHelper sampleRanges
          (sampleRun (sampleMesh.updateHelper sampleMaterial sampleRanges)) fun _ => 1) =
        (sampleMesh.differentialSerial
          ((sampleMesh.updateSerial sampleMaterial).run fun _ => 0) fun _ => 1).run
            fun _ => 0 := by
  have symmetric : ∀ t a b, sampleMaterial.dFdX t b a =
      (sampleMaterial.dFdX t a b).transpose := by decide +kernel
  obtain ⟨forces, differential, -⟩ := sampleMesh.parallel_eq_serial symmetric sampleRanges_splits
    (sampleRun_runs _) (sampleRun_runs _) (sampleRun_runs _) fun _ => 0
  exact ⟨forces, differential⟩

end P3arsec.Facesim
