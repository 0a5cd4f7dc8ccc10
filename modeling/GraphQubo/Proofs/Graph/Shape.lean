import GraphQubo.Proofs.Graph.Building

/-!
# GraphQubo.Proofs.Graph.Shape

Graphs with the same edges, whatever their edges weigh.

Adjacency, degrees and loops are read off the ends of the edges alone.

* `SameShape.neighbors_eq`, `SameShape.nonNeighbors_eq` — the same lists of nodes;
* `SameShape.eq_of_mem_iff` — with the same weights it is the same graph.
-/

namespace GraphQubo.Graph

variable {K : Type} [Coefficient K]

/-- The same nodes, and edges between the same ends. -/
structure SameShape (g g' : Graph K) : Prop where
  directed : g.directed = g'.directed
  nodeCount : g.nodeCount = g'.nodeCount
  ends : ∀ v w, (∃ e ∈ g.edges, e.source = v ∧ e.target = w) ↔
    ∃ e ∈ g'.edges, e.source = v ∧ e.target = w

/-- Which nodes an edge can be walked between, by the ends of edges. -/
theorem arc_iff_ends {g : Graph K} {v w : Nat} :
    g.Arc v w ↔ (∃ e ∈ g.edges, e.source = v ∧ e.target = w) ∨
      (g.directed = false ∧ ∃ e ∈ g.edges, e.source = w ∧ e.target = v) := by
  simp only [Arc, walks_iff]
  constructor
  · rintro ⟨e, he, hends | ⟨hd, hends⟩⟩
    · exact .inl ⟨e, he, hends⟩
    · exact .inr ⟨hd, e, he, hends⟩
  · rintro (⟨e, he, hends⟩ | ⟨hd, e, he, hends⟩)
    · exact ⟨e, he, .inl hends⟩
    · exact ⟨e, he, .inr ⟨hd, hends⟩⟩

namespace SameShape

variable {g g' : Graph K}

/-- Graphs of one shape that have the same edges, weights included, are the same. -/
theorem eq_of_mem_iff (h : g.SameShape g') (hedges : ∀ e, e ∈ g.edges ↔ e ∈ g'.edges) : g = g' :=
  ext_edges h.directed h.nodeCount (Edge.eq_of_mem_iff g.sorted g'.sorted hedges)

/-- The same nodes are joined by an edge that can be walked. -/
theorem arc_iff (h : g.SameShape g') {v w : Nat} : g.Arc v w ↔ g'.Arc v w := by
  rw [arc_iff_ends, arc_iff_ends, h.directed, h.ends v w, h.ends w v]

/-- The test for neighbours has the same answers. -/
theorem joins_eq (h : g.SameShape g') (adjacency : Adjacency) (v w : Nat) :
    joins g.directed adjacency g.edges v w = joins g'.directed adjacency g'.edges v w := by
  rw [Bool.eq_iff_iff]
  cases adjacency with
  | outgoing => rw [joins_outgoing_iff, joins_outgoing_iff, h.arc_iff]
  | any => rw [joins_any_iff, joins_any_iff, Joined, Joined, h.arc_iff, h.arc_iff]

variable {v : Nat}

/-- Both have the same nodes. -/
theorem lt_iff (h : g.SameShape g') : v < g.nodeCount ↔ v < g'.nodeCount := by
  rw [h.nodeCount]

/-- A node, or any other number, has the same neighbours in both graphs. -/
theorem neighbors_eq (h : g.SameShape g') (v : Nat) (adjacency : Adjacency) :
    g.neighbors v adjacency = g'.neighbors v adjacency := by
  rw [neighbors_eq_filter, neighbors_eq_filter, nodes, nodes, h.nodeCount]
  exact List.filter_congr fun w _ => h.joins_eq adjacency (identifier v) w

/-- The same nodes are none of its neighbours. -/
theorem nonNeighbors_eq (h : g.SameShape g') (v : Nat) (adjacency : Adjacency) :
    g.nonNeighbors v adjacency = g'.nonNeighbors v adjacency := by
  simp only [nonNeighbors_eq_filter, nodes, h.nodeCount, h.joins_eq adjacency (identifier v)]

/-- The same nodes have loops. -/
theorem hasSelfLoop_eq (h : g.SameShape g') (hv : v < g.nodeCount) :
    g.hasSelfLoop v = g'.hasSelfLoop v := by
  rw [Bool.eq_iff_iff, hasSelfLoop_iff hv, hasSelfLoop_iff (h.lt_iff.1 hv), h.arc_iff]

/-- A list of something about every node is the same for both graphs. -/
theorem map_nodes_eq {α : Type} (h : g.SameShape g') {f f' : Nat → α}
    (hf : ∀ v, v < g.nodeCount → f v = f' v) : g.nodes.map f = g'.nodes.map f' := by
  rw [nodes, nodes, ← h.nodeCount]
  exact List.map_congr_left fun v hv => hf v (List.mem_range.1 hv)

end SameShape

end GraphQubo.Graph
