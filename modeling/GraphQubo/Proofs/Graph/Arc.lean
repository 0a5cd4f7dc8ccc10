import Mathlib.Data.List.Basic
import Mathlib.Data.List.Find
import GraphQubo.Proofs.Graph.Walk

/-!
# GraphQubo.Proofs.Graph.Arc

Which nodes the edges of a graph join, said of the stored edges alone.

An edge can be walked from its source to its target, and in an undirected graph
also back.  `Arc v w` says that some edge can be walked from `v` to `w`, and
`Joined v w` that one can be walked in one of the two directions.  For the nodes
of the graph every query has its meaning in these words:

* `hasEdge_iff`, `isAdjacent_any_iff` — the yes-or-no queries;
* `mem_neighbors_any`, `mem_nonNeighbors_outgoing` and their partners — the lists;
* `mem_weightedSuccessors` — the successors with the weights of their edges.
-/

namespace GraphQubo.Graph

variable {K : Type} [Coefficient K]

/-- Whether an edge can be walked from `source` to `target`. -/
def walks (g : Graph K) (source target : Nat) (e : Edge K) : Bool :=
  e.leads source target || (!g.directed && e.leads target source)

/-- Some edge can be walked from `v` to `w`. -/
def Arc (g : Graph K) (v w : Nat) : Prop := ∃ e ∈ g.edges, g.walks v w e = true

/-- Some edge joins two nodes, whichever way it leads. -/
def Joined (g : Graph K) (v w : Nat) : Prop := g.Arc v w ∨ g.Arc w v

instance (g : Graph K) (v w : Nat) : Decidable (g.Arc v w) :=
  inferInstanceAs (Decidable (∃ e ∈ g.edges, g.walks v w e = true))

instance (g : Graph K) (v w : Nat) : Decidable (g.Joined v w) :=
  inferInstanceAs (Decidable (_ ∨ _))

/-- The weight of the edge that is walked from `v` to `w`, if it has one. -/
def arcWeight? (g : Graph K) (v w : Nat) : Option K :=
  (g.edges.find? (g.walks v w)).bind Edge.weight

/-- The weight of the edge that is walked from `v` to `w`; zero if it has none. -/
def arcWeight (g : Graph K) (v w : Nat) : K := (g.arcWeight? v w).getD 0

/-! ## Walking an edge -/

/-- An edge is walked along its direction, or both ways if it has none. -/
theorem walks_iff (g : Graph K) {v w : Nat} {e : Edge K} :
    g.walks v w e = true ↔
      (e.source = v ∧ e.target = w) ∨ (g.directed = false ∧ e.source = w ∧ e.target = v) := by
  simp [walks, Edge.leads]

/-- Being joined is symmetric. -/
theorem Joined.symm {g : Graph K} {v w : Nat} (h : g.Joined v w) : g.Joined w v := Or.symm h

/-- Being joined does not depend on which node is named first. -/
theorem joined_comm {g : Graph K} {v w : Nat} : g.Joined v w ↔ g.Joined w v := ⟨.symm, .symm⟩

/-- A node is joined to itself by a loop only. -/
theorem joined_self {g : Graph K} {v : Nat} : g.Joined v v ↔ g.Arc v v := or_self_iff

/-- Arcs run between nodes of the graph. -/
theorem Arc.lt {g : Graph K} {v w : Nat} (h : g.Arc v w) : v < g.nodeCount ∧ w < g.nodeCount := by
  obtain ⟨e, he, hw⟩ := h
  have hb := g.bounded e he
  rcases (walks_iff g).1 hw with ⟨rfl, rfl⟩ | ⟨-, rfl, rfl⟩
  · exact hb
  · exact hb.symm

/-- An undirected edge is walked both ways. -/
theorem Arc.symm {g : Graph K} {v w : Nat} (hd : g.directed = false) (h : g.Arc v w) :
    g.Arc w v := by
  obtain ⟨e, he, hw⟩ := h
  refine ⟨e, he, (walks_iff g).2 ?_⟩
  rcases (walks_iff g).1 hw with ⟨hs, ht⟩ | ⟨-, hs, ht⟩
  · exact .inr ⟨hd, hs, ht⟩
  · exact .inl ⟨hs, ht⟩

/-- Two nodes are joined when some edge leads from one of them to the other. -/
theorem joined_iff_any {g : Graph K} {v w : Nat} :
    g.Joined v w ↔ g.edges.any (fun e => e.leads v w || e.leads w v) = true := by
  simp only [Joined, Arc, walks_iff, List.any_eq_true, Bool.or_eq_true, Edge.leads_iff]
  constructor
  · rintro (⟨e, he, h⟩ | ⟨e, he, h⟩) <;> exact ⟨e, he, by grind⟩
  · rintro ⟨e, he, h | h⟩
    · exact .inl ⟨e, he, .inl h⟩
    · exact .inr ⟨e, he, .inl h⟩

/-! ## Queries about two nodes -/

/-- Nodes of the graph are their own identifiers. -/
theorem identifier_of_lt {g : Graph K} {v : Nat} (h : v < g.nodeCount) : identifier v = v :=
  Nat.mod_eq_of_lt (Nat.lt_trans h g.nodeCount_lt)

/-- The edge that is looked up between two nodes is the one that is walked. -/
theorem find?_eq {g : Graph K} {v w : Nat} (hv : v < g.nodeCount) (hw : w < g.nodeCount) :
    g.find? v w = g.edges.find? (g.walks v w) := by
  unfold find? orient
  cases hd : g.directed with
  | true =>
    simp only [if_true, identifier_of_lt hv, identifier_of_lt hw]
    refine List.find?_congr fun e _ => ?_
    simp [walks, hd]
  | false =>
    have hmin : min v w < g.nodeCount := by omega
    have hmax : max v w < g.nodeCount := by omega
    simp only [Bool.false_eq_true, if_false, identifier_of_lt hmin, identifier_of_lt hmax]
    refine List.find?_congr fun e he => ?_
    have ho := g.oriented hd e he
    rw [Bool.eq_iff_iff, Edge.leads_iff, walks_iff]
    simp only [hd, true_and]
    omega

/-- The query for an edge is answered by the arcs, for nodes of the graph. -/
theorem hasEdge_iff {g : Graph K} {v w : Nat} (hv : v < g.nodeCount) (hw : w < g.nodeCount) :
    g.hasEdge v w = true ↔ g.Arc v w := by
  rw [hasEdge, find?_eq hv hw, List.find?_isSome]
  rfl

/-- A self loop is an arc from a node to itself. -/
theorem hasSelfLoop_iff {g : Graph K} {v : Nat} (hv : v < g.nodeCount) :
    g.hasSelfLoop v = true ↔ g.Arc v v := hasEdge_iff hv hv

/-- Two nodes are adjacent in any direction if an edge joins them. -/
theorem isAdjacent_any_iff {g : Graph K} {v w : Nat} (hv : v < g.nodeCount)
    (hw : w < g.nodeCount) : g.isAdjacent v w .any = true ↔ g.Joined v w := by
  rw [joined_iff_any, isAdjacent, isSome_findEitherWay? _ g.directed, identifier_of_lt hv,
    identifier_of_lt hw]
  rfl

/-- The weight of an edge is found if and only if there is an arc, and is that of the arc. -/
theorem edgeWeight_eq_ok_iff {g : Graph K} {v w : Nat} {x : Option K} :
    g.edgeWeight v w = .ok x ↔ g.Arc v w ∧ g.arcWeight? v w = x := by
  by_cases h : v < g.nodeCount ∧ w < g.nodeCount
  · obtain ⟨hv, hw⟩ := h
    have harc : g.Arc v w ↔ (g.edges.find? (g.walks v w)).isSome := List.find?_isSome.symm
    simp only [edgeWeight, checkNode, hv, hw, if_true, bind, Except.bind, find?_eq hv hw, harc,
      arcWeight?]
    cases g.edges.find? (g.walks v w) <;> simp
  · have harc : ¬g.Arc v w := fun hn => h hn.lt
    simp only [edgeWeight, checkNode, harc, false_and, iff_false]
    by_cases hv : v < g.nodeCount
    · have hw : ¬w < g.nodeCount := fun hw => h ⟨hv, hw⟩
      simp [hv, hw, bind, Except.bind]
    · simp [hv, bind, Except.bind]

/-! ## Lists of nodes -/

/-- The edges that count in any direction are those that join two nodes. -/
theorem joins_any_iff {g : Graph K} {v w : Nat} :
    joins g.directed .any g.edges v w = true ↔ g.Joined v w := joined_iff_any.symm

/-- The edges that count outwards are the arcs. -/
theorem joins_outgoing_iff {g : Graph K} {v w : Nat} :
    joins g.directed .outgoing g.edges v w = true ↔ g.Arc v w := by
  cases hd : g.directed with
  | true => simp [joins, Arc, walks, hd]
  | false => simp [joins, Arc, walks, hd]

/-- The neighbours of a node are the nodes that are joined to it. -/
theorem mem_neighbors_any {g : Graph K} {v w : Nat} (hv : v < g.nodeCount) :
    w ∈ g.neighbors v .any ↔ w < g.nodeCount ∧ g.Joined v w := by
  rw [neighbors_eq_filter, identifier_of_lt hv, List.mem_filter, nodes, List.mem_range,
    joins_any_iff]

/-- Its successors are the nodes that it can be left for. -/
theorem mem_neighbors_outgoing {g : Graph K} {v w : Nat} (hv : v < g.nodeCount) :
    w ∈ g.neighbors v .outgoing ↔ w < g.nodeCount ∧ g.Arc v w := by
  rw [neighbors_eq_filter, identifier_of_lt hv, List.mem_filter, nodes, List.mem_range,
    joins_outgoing_iff]

/-- The other nodes, but for the node itself, are not joined to it. -/
theorem mem_nonNeighbors_any {g : Graph K} {v w : Nat} (hv : v < g.nodeCount) :
    w ∈ g.nonNeighbors v .any ↔ w < g.nodeCount ∧ w ≠ v ∧ ¬g.Joined v w := by
  rw [nonNeighbors_eq_filter, identifier_of_lt hv, List.mem_filter, nodes, List.mem_range,
    Bool.and_eq_true, bne_iff_ne, Bool.not_eq_true', ← Bool.not_eq_true, joins_any_iff]

/-- No edge can be walked to the nodes that are listed as no successors. -/
theorem mem_nonNeighbors_outgoing {g : Graph K} {v w : Nat} (hv : v < g.nodeCount) :
    w ∈ g.nonNeighbors v .outgoing ↔ w < g.nodeCount ∧ w ≠ v ∧ ¬g.Arc v w := by
  rw [nonNeighbors_eq_filter, identifier_of_lt hv, List.mem_filter, nodes, List.mem_range,
    Bool.and_eq_true, bne_iff_ne, Bool.not_eq_true', ← Bool.not_eq_true, joins_outgoing_iff]

/-- No neighbour is listed twice. -/
theorem nodup_neighbors (g : Graph K) (v : Nat) (adjacency : Adjacency) :
    (g.neighbors v adjacency).Nodup := (g.ascending_neighbors v adjacency).imp Nat.ne_of_lt

theorem nodup_nonNeighbors (g : Graph K) (v : Nat) (adjacency : Adjacency) :
    (g.nonNeighbors v adjacency).Nodup := List.nodup_range.filter _

/-- Every successor is listed with the weight of the edge that leads there. -/
theorem weightedSuccessors_eq {g : Graph K} {v : Nat} (hv : v < g.nodeCount) :
    g.weightedSuccessors v =
      (g.neighbors v .outgoing).map fun w => (w, g.arcWeight? v w) := by
  unfold weightedSuccessors
  rw [← List.filterMap_eq_map']
  refine List.filterMap_congr fun w hw => ?_
  obtain ⟨hwn, harc⟩ := (mem_neighbors_outgoing hv).1 hw
  have hsome : (g.edges.find? (g.walks v w)).isSome := List.find?_isSome.2 harc
  obtain ⟨e, he⟩ := Option.isSome_iff_exists.1 hsome
  simp [find?_eq hv hwn, arcWeight?, he]

/-- The successors of a node come with the weights of their arcs. -/
theorem mem_weightedSuccessors {g : Graph K} {v w : Nat} {x : Option K} (hv : v < g.nodeCount) :
    (w, x) ∈ g.weightedSuccessors v ↔ g.Arc v w ∧ g.arcWeight? v w = x := by
  simp only [weightedSuccessors_eq hv, List.mem_map, mem_neighbors_outgoing hv, Prod.mk.injEq]
  constructor
  · rintro ⟨w', ⟨-, harc⟩, rfl, hx⟩
    exact ⟨harc, hx⟩
  · rintro ⟨harc, hx⟩
    exact ⟨w, ⟨harc.lt.2, harc⟩, rfl, hx⟩

/-- Where every edge has a weight, so has every edge that is walked. -/
theorem arcWeight?_eq_some {g : Graph K} {v w : Nat} (hall : g.firstUnweighted? = none)
    (h : g.Arc v w) : g.arcWeight? v w = some (g.arcWeight v w) := by
  obtain ⟨e, he⟩ := Option.isSome_iff_exists.1 (List.find?_isSome.2 h)
  have hnone := List.find?_eq_none.1 hall e (List.mem_of_find?_eq_some he)
  rw [arcWeight, arcWeight?, he, Option.bind_some]
  cases hw : e.weight with
  | none => simp [hw] at hnone
  | some x => rfl

end GraphQubo.Graph
