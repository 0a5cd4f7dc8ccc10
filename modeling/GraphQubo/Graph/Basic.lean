import GraphQubo.Error
import GraphQubo.Graph.Edge

/-!
# GraphQubo.Graph.Basic

Directed and undirected graphs over the nodes `0 .. nodeCount - 1`.

1. Node identifiers have 32 bits, so a graph has fewer than `2^32` nodes.
2. Edges are sorted by their ends, and each pair of ends has one edge.
3. An edge of an undirected graph is stored once, from the smaller end to the
   larger one.
4. A weight is finite and not negative.

`Graph.ofEdges` is the only way edges get into a graph.  It takes them in any
order, refuses the first one that breaks a rule and lets the last weight for a
pair of ends count.
-/

namespace GraphQubo

/-- How many node identifiers there are, `2^32`. -/
def nodeLimit : Nat := 4294967296

/-- Whether an edge may carry the weight. -/
def validWeight {K : Type} [Coefficient K] (w : K) : Bool :=
  Coefficient.isFinite w && !Coefficient.below w 0

/-- A graph: its direction flag, its node count and its edges in order. -/
structure Graph (K : Type) [Coefficient K] where
  directed : Bool
  nodeCount : Nat
  edges : List (Edge K)
  nodeCount_lt : nodeCount < nodeLimit
  sorted : edges.Pairwise Edge.Precedes
  bounded : ∀ e ∈ edges, e.source < nodeCount ∧ e.target < nodeCount
  oriented : directed = false → ∀ e ∈ edges, e.source ≤ e.target
  weighted : ∀ e ∈ edges, ∀ w, e.weight = some w → validWeight w = true

/-- The ends of an edge as a graph stores them: undirected ones ascending. -/
def orient (directed : Bool) (source target : Nat) : Nat × Nat :=
  if directed then (source, target) else (min source target, max source target)

namespace Graph

variable {K : Type} [Coefficient K]

/-- The graph of `nodeCount` nodes without edges. -/
def edgeless (directed : Bool) (nodeCount : Nat) : Except (Error K) (Graph K) :=
  if h : nodeCount < nodeLimit then
    .ok { directed, nodeCount, edges := [], nodeCount_lt := h, sorted := .nil
          bounded := by simp, oriented := by simp, weighted := by simp }
  else .error (.tooManyNodes nodeCount)

/-- Refuses a node that the graph does not have. -/
def checkNode (g : Graph K) (node : Nat) : Except (Error K) Unit :=
  if node < g.nodeCount then .ok () else .error (.nodeOutOfRange node g.nodeCount)

/-- Puts a valid edge into a graph, in place of the one with the same ends. -/
def insertEdge (g : Graph K) (source target : Nat) (weight : Option K)
    (hs : source < g.nodeCount) (ht : target < g.nodeCount)
    (hw : ∀ w, weight = some w → validWeight w = true) : Graph K :=
  let ends := orient g.directed source target
  { g with
    edges := Edge.insert ⟨ends.1, ends.2, weight⟩ g.edges
    sorted := Edge.pairwise_insert g.sorted
    bounded := by
      intro e he
      rcases Edge.mem_of_mem_insert he with rfl | he
      · simp only [ends, orient]
        split <;> constructor <;> simp only [] <;> omega
      · exact g.bounded e he
    oriented := by
      intro hd e he
      rcases Edge.mem_of_mem_insert he with rfl | he
      · simp only [ends, orient, hd, Bool.false_eq_true, if_false]
        omega
      · exact g.oriented hd e he
    weighted := by
      intro e he w hew
      rcases Edge.mem_of_mem_insert he with rfl | he
      · exact hw w hew
      · exact g.weighted e he w hew }

/-- Adds an edge after checking its ends, first the source, and its weight. -/
def addEdge (g : Graph K) (e : Edge K) : Except (Error K) (Graph K) :=
  if hs : e.source < g.nodeCount then
    if ht : e.target < g.nodeCount then
      match hw : e.weight with
      | none => .ok (g.insertEdge e.source e.target none hs ht (by simp))
      | some w =>
        if hv : validWeight w = true then
          .ok (g.insertEdge e.source e.target (some w) hs ht (by simpa using hv))
        else .error (.invalidEdgeWeight e.source e.target w)
    else .error (.nodeOutOfRange e.target g.nodeCount)
  else .error (.nodeOutOfRange e.source g.nodeCount)

/-- The graph over `nodeCount` nodes with the given edges, added one by one. -/
def ofEdges (directed : Bool) (nodeCount : Nat) (edges : List (Edge K)) :
    Except (Error K) (Graph K) := do
  edges.foldlM addEdge (← edgeless directed nodeCount)

/-- The number of edges. -/
def edgeCount (g : Graph K) : Nat := g.edges.length

/-- The nodes in ascending order. -/
def nodes (g : Graph K) : List Nat := List.range g.nodeCount

/-- Whether the graph has no nodes. -/
def isEmpty (g : Graph K) : Bool := g.nodeCount == 0

end Graph

end GraphQubo
