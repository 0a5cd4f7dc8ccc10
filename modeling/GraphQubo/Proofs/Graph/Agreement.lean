import Mathlib.Data.List.Perm.Basic
import Mathlib.Data.List.Sort
import GraphQubo.Proofs.Graph.LastWins

/-!
# GraphQubo.Proofs.Graph.Agreement

All queries about the nodes of a graph agree with each other.

A query looks an edge up under the ends it is stored under, looks for one in both directions, or
walks along the edges at a node.  Between two nodes of the graph at most one edge is stored for
each direction, and it is the one that is looked up (`find?_eq_some_iff`); a node is listed if and
only if the test for two nodes holds (`mem_neighbors_iff`, `mem_nonNeighbors_iff`).  Everything
else follows from these three.  None of the answers depends on the order of the arcs in the store.

* `AgreesAt` — what the queries say of one node;
* `AgreesBetween` — what they say of two nodes;
* `queries_agree` — both for all nodes, and which weight is the largest.
-/

namespace GraphQubo

variable {K : Type}

variable [Coefficient K]

namespace Graph

open Ascending (dedup sort search search_iff)

/-! ## Looking up an edge -/

variable {g : Graph K} {v w : Nat}

/-- Between two nodes the edge with their ends is looked up. -/
theorem find?_eq_some_iff (hv : v < g.nodeCount) (hw : w < g.nodeCount) {e : Edge K} :
    g.find? v w = some e ↔ e ∈ g.edges ∧ e.ends = orient g.directed v w := by
  obtain ⟨hsource, htarget⟩ := orient_lt g.directed hv hw
  rw [find?, identifier_of_lt hsource, identifier_of_lt htarget]
  constructor
  · intro h
    exact ⟨List.mem_of_find?_eq_some h, Edge.leads_iff_ends.1 (List.find?_some h)⟩
  · rintro ⟨he, hends⟩
    rw [← hends]
    exact (Edge.apart_of_pairwise g.sorted).mem_iff_find?.1 he

/-- In an undirected graph the same edge is looked up both ways. -/
theorem find?_comm (hd : g.directed = false) (v w : Nat) : g.find? v w = g.find? w v := by
  have hends : orient g.directed v w = orient g.directed w v :=
    orient_eq_iff.2 (.inr ⟨hd, rfl, rfl⟩)
  rw [find?, find?, hends]

/-- The query for an edge is answered by the stored ends. -/
theorem hasEdge_iff_mem_ends (hv : v < g.nodeCount) (hw : w < g.nodeCount) :
    g.hasEdge v w = true ↔ orient g.directed v w ∈ g.edges.map Edge.ends := by
  rw [hasEdge, Option.isSome_iff_exists, List.mem_map]
  exact exists_congr fun e => find?_eq_some_iff hv hw

/-- The weight of an edge is that of the one edge with its ends. -/
theorem edgeWeight_eq (hv : v < g.nodeCount) (hw : w < g.nodeCount) :
    g.edgeWeight v w =
      match g.find? v w with
      | some e => .ok e.weight
      | none => .error (.noSuchEdge v w) := by
  rw [edgeWeight, checkNode, if_pos hv, checkNode, if_pos hw]
  rfl

/-- A weight is found where an edge is. -/
theorem edgeWeight_eq_ok_iff_find? (hv : v < g.nodeCount) (hw : w < g.nodeCount) {x : Option K} :
    g.edgeWeight v w = .ok x ↔ ∃ e, g.find? v w = some e ∧ e.weight = x := by
  rw [edgeWeight_eq hv hw]
  cases g.find? v w <;> simp

/-! ## Lists of nodes -/

/-- Adjacency is answered by the edges that count in its direction. -/
theorem isAdjacent_eq_joins (hv : v < g.nodeCount) (hw : w < g.nodeCount) :
    ∀ adjacency, g.isAdjacent v w adjacency = joins g.directed adjacency g.edges v w
  | .outgoing => by
    rw [Bool.eq_iff_iff, joins_outgoing_iff]
    exact hasEdge_iff hv hw
  | .any => by
    rw [isAdjacent, isSome_findEitherWay? _ g.directed, identifier_of_lt hv, identifier_of_lt hw]

/-- A node is listed if the test says that it is a neighbour. -/
theorem mem_neighbors_iff (hv : v < g.nodeCount) (hw : w < g.nodeCount) (adjacency : Adjacency) :
    w ∈ g.neighbors v adjacency ↔ g.isAdjacent v w adjacency = true := by
  rw [neighbors_eq_filter, List.mem_filter, identifier_of_lt hv, isAdjacent_eq_joins hv hw, nodes,
    List.mem_range, and_iff_right hw]

/-- Another node is listed if the test says that it is no neighbour. -/
theorem mem_nonNeighbors_iff (hv : v < g.nodeCount) (hw : w < g.nodeCount)
    (adjacency : Adjacency) :
    w ∈ g.nonNeighbors v adjacency ↔ w ≠ v ∧ ¬g.isAdjacent v w adjacency = true := by
  rw [nonNeighbors_eq_filter, List.mem_filter, identifier_of_lt hv, isAdjacent_eq_joins hv hw,
    nodes, List.mem_range, and_iff_right hw, Bool.and_eq_true, bne_iff_ne, Bool.not_eq_true',
    Bool.not_eq_true]

/-- Neighbours are nodes of the graph. -/
theorem lt_of_mem_neighbors {adjacency : Adjacency} (h : w ∈ g.neighbors v adjacency) :
    w < g.nodeCount := by
  rw [neighbors_eq_filter] at h
  exact List.mem_range.1 (List.mem_of_mem_filter h)

/-- So are the nodes that are no neighbours. -/
theorem lt_of_mem_nonNeighbors {adjacency : Adjacency} (h : w ∈ g.nonNeighbors v adjacency) :
    w < g.nodeCount :=
  List.mem_range.1 (List.mem_of_mem_filter h)

/-- No node is both a neighbour and not. -/
theorem disjoint_nonNeighbors (hv : v < g.nodeCount) (adjacency : Adjacency) :
    List.Disjoint (g.neighbors v adjacency) (g.nonNeighbors v adjacency) := by
  intro w hnear hfar
  have hw := lt_of_mem_neighbors hnear
  exact ((mem_nonNeighbors_iff hv hw adjacency).1 hfar).2
    ((mem_neighbors_iff hv hw adjacency).1 hnear)

/-- A node, its other neighbours and the rest are all nodes, each once. -/
theorem perm_nodes (hv : v < g.nodeCount) (adjacency : Adjacency) :
    (v :: ((g.neighbors v adjacency).filter (· ≠ v) ++ g.nonNeighbors v adjacency)).Perm
      g.nodes := by
  have hself : v ∉ (g.neighbors v adjacency).filter (· ≠ v) ++ g.nonNeighbors v adjacency := by
    simp [mem_nonNeighbors_iff hv hv]
  have hrest := ((g.nodup_neighbors v adjacency).filter (· ≠ v)).append
    (g.nodup_nonNeighbors v adjacency)
    (List.disjoint_of_subset_left List.filter_sublist.subset (disjoint_nonNeighbors hv adjacency))
  refine (List.perm_ext_iff_of_nodup (List.nodup_cons.2 ⟨hself, hrest⟩) List.nodup_range).2
    fun w => ?_
  simp only [List.mem_cons, List.mem_append, List.mem_filter, decide_eq_true_eq, List.mem_range]
  constructor
  · rintro (rfl | ⟨h, -⟩ | h)
    · exact hv
    · exact lt_of_mem_neighbors h
    · exact lt_of_mem_nonNeighbors h
  · intro hw
    rw [mem_neighbors_iff hv hw, mem_nonNeighbors_iff hv hw]
    by_cases hwv : w = v
    · exact .inl hwv
    · by_cases hadjacent : g.isAdjacent v w adjacency = true
      · exact .inr (.inl ⟨hadjacent, hwv⟩)
      · exact .inr (.inr ⟨hwv, hadjacent⟩)

/-! ## What the queries say -/

/-- The queries about one node agree. -/
structure AgreesAt (g : Graph K) (a : Nat) : Prop where
  /-- The arcs may be stored in any order. -/
  stored : ∀ arcs, arcs.Perm g.edges → ∀ adjacency,
    dedup (sort (walk g.directed adjacency arcs (identifier a))) = g.neighbors a adjacency
  /-- A search among the neighbours finds all of them, and nothing else. -/
  searched : ∀ adjacency b,
    search (g.neighbors a adjacency).toArray b = true ↔ b ∈ g.neighbors a adjacency
  ascending : ∀ adjacency,
    (g.neighbors a adjacency).Pairwise (· < ·) ∧ (g.nonNeighbors a adjacency).Pairwise (· < ·)
  partition : ∀ adjacency,
    (a :: ((g.neighbors a adjacency).filter (· ≠ a) ++ g.nonNeighbors a adjacency)).Perm g.nodes
  successors : (g.weightedSuccessors a).map Prod.fst = g.neighbors a .outgoing
  weights : ∀ b x, (b, x) ∈ g.weightedSuccessors a ↔
    b ∈ g.neighbors a .outgoing ∧ g.edgeWeight a b = .ok x
  degree : g.degree a = (g.neighbors a .any).length
  selfLoop : g.hasSelfLoop a = true ↔ a ∈ g.neighbors a .any
  undirected : g.directed = false → g.neighbors a .outgoing = g.neighbors a .any ∧
    g.nonNeighbors a .outgoing = g.nonNeighbors a .any

/-- The queries about two nodes agree. -/
structure AgreesBetween (g : Graph K) (a b : Nat) : Prop where
  neighbor : ∀ adjacency, b ∈ g.neighbors a adjacency ↔ g.isAdjacent a b adjacency = true
  key : g.hasEdge a b = true ↔ orient g.directed a b ∈ g.edges.map Edge.ends
  weight : ∀ x, g.edgeWeight a b = .ok x ↔
    ∃ e ∈ g.edges, e.ends = orient g.directed a b ∧ e.weight = x
  hasWeight : g.hasEdge a b = true ↔ ∃ x, g.edgeWeight a b = .ok x
  noWeight : g.hasEdge a b = false → g.edgeWeight a b = .error (.noSuchEdge a b)
  outgoing : g.isAdjacent a b .outgoing = g.hasEdge a b
  /-- The arcs may be stored in any order. -/
  stored : ∀ arcs, arcs.Perm g.edges →
    (findEitherWay? arcs (identifier a) (identifier b)).isSome = g.isAdjacent a b .any
  any : g.isAdjacent a b .any = (g.hasEdge a b || g.hasEdge b a)
  symmetric : g.isAdjacent a b .any = g.isAdjacent b a .any
  undirected : g.directed = false → g.isAdjacent a b .outgoing = g.isAdjacent a b .any ∧
    ∀ x, g.edgeWeight a b = .ok x ↔ g.edgeWeight b a = .ok x

/-- At each node of a graph its queries agree. -/
theorem agreesAt (hv : v < g.nodeCount) : g.AgreesAt v where
  stored _ harcs adjacency := dedup_sort_walk_of_perm harcs g.directed adjacency (identifier v)
  searched adjacency _ := search_iff ((g.ascending_neighbors v adjacency).imp Nat.le_of_lt)
  ascending adjacency := ⟨g.ascending_neighbors v adjacency, g.ascending_nodes.filter _⟩
  partition := perm_nodes hv
  successors := by
    rw [weightedSuccessors_eq hv, List.map_map]
    exact List.map_id _
  weights w x := by
    rw [mem_weightedSuccessors hv, edgeWeight_eq_ok_iff, mem_neighbors_outgoing hv]
    constructor
    · intro h
      exact ⟨⟨h.1.lt.2, h.1⟩, h⟩
    · exact And.right
  degree := rfl
  selfLoop := by
    rw [hasSelfLoop_iff hv, mem_neighbors_any hv, joined_self, and_iff_right hv]
  undirected hd := by
    simp only [neighbors_eq_filter, nonNeighbors_eq_filter, hd, joins_undirected .outgoing,
      and_self]

/-- Between each two nodes of a graph its queries agree. -/
theorem agreesBetween (hv : v < g.nodeCount) (hw : w < g.nodeCount) : g.AgreesBetween v w where
  neighbor := mem_neighbors_iff hv hw
  key := hasEdge_iff_mem_ends hv hw
  weight x := by
    rw [edgeWeight_eq_ok_iff_find? hv hw]
    simp only [find?_eq_some_iff hv hw, and_assoc]
  hasWeight := by
    simp only [edgeWeight_eq_ok_iff_find? hv hw, hasEdge, Option.isSome_iff_exists]
    constructor
    · rintro ⟨e, he⟩
      exact ⟨e.weight, e, he, rfl⟩
    · rintro ⟨-, e, he, -⟩
      exact ⟨e, he⟩
  noWeight h := by
    rw [edgeWeight_eq hv hw, Option.isNone_iff_eq_none.1 (Option.isSome_eq_false_iff.1 h)]
  outgoing := rfl
  stored arcs harcs := by
    rw [isAdjacent, isSome_findEitherWay? _ g.directed, isSome_findEitherWay? _ g.directed,
      joins_of_perm harcs]
  any := by
    rw [Bool.eq_iff_iff, isAdjacent_any_iff hv hw, Bool.or_eq_true, hasEdge_iff hv hw,
      hasEdge_iff hw hv, Joined]
  symmetric := by
    rw [Bool.eq_iff_iff, isAdjacent_any_iff hv hw, isAdjacent_any_iff hw hv, joined_comm]
  undirected hd := by
    refine ⟨?_, fun x => ?_⟩
    · rw [isAdjacent_eq_joins hv hw, isAdjacent_eq_joins hv hw, hd, joins_undirected]
    · rw [edgeWeight_eq_ok_iff_find? hv hw, edgeWeight_eq_ok_iff_find? hw hv, find?_comm hd]

end Graph

/-- All queries agree.  For the nodes of a graph lists, tests and look-ups tell of the same edges
and weights, which are the stored ones.  The largest weight is refused for the first edge without
one, and otherwise it is the largest. -/
theorem queries_agree [Coefficient.Ordered K] (g : Graph K) :
    (∀ a, a < g.nodeCount → g.AgreesAt a) ∧
    (∀ a b, a < g.nodeCount → b < g.nodeCount → g.AgreesBetween a b) ∧
    (∀ e, g.firstUnweighted? = some e →
      g.maxWeight = .error (.unweightedEdge e.source e.target)) ∧
    (g.firstUnweighted? = none → ∃ W, g.maxWeight = .ok W ∧ g.IsLargestWeight W) :=
  ⟨fun _ => Graph.agreesAt, fun _ _ => Graph.agreesBetween,
    fun _ h => Graph.foldlM_heavier_eq_error h 0, Graph.exists_isLargestWeight⟩

/-- Two nodes with an arc each way and a loop, next to a third node. -/
def Graph.backAndForth : Graph Float where
  directed := true
  nodeCount := 3
  edges := [⟨0, 0, some 1⟩, ⟨0, 1, none⟩, ⟨1, 0, some 2⟩]
  nodeCount_lt := by decide
  sorted := by decide
  bounded := by decide
  oriented := by decide
  weighted := by decide +kernel

/-- A neighbour that a walk meets both ways is listed once, and so is the node itself. -/
theorem queries_agree_backAndForth :
    Graph.backAndForth.AgreesAt 0 ∧ Graph.backAndForth.AgreesBetween 0 1 ∧
      Graph.walk true .any Graph.backAndForth.edges 0 = [0, 1, 1] ∧
      Graph.backAndForth.neighbors 0 .any = [0, 1] ∧
      Graph.backAndForth.maxWeight = .error (.unweightedEdge 0 1) := by
  obtain ⟨hat, hbetween, hunweighted, -⟩ := queries_agree Graph.backAndForth
  exact ⟨hat 0 (by decide), hbetween 0 1 (by decide) (by decide), rfl, rfl,
    hunweighted ⟨0, 1, none⟩ rfl⟩

end GraphQubo
