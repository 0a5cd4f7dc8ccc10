import GraphQubo.Compile.Log

/-!
# GraphQubo.Problem

Ready-made formulations of common graph problems.

A problem only chooses the number of positions, the start and terminal nodes
and the penalty weights; its matrix is compiled like that of any other
configuration.

| Problem | Positions | `x(v, p)` says |
|---|---|---|
| longest path | steps + 1 | `v` is the `p`-th node of the path |
| traveling salesperson, Hamiltonian cycle | nodes, at least 1 | `v` is visited `p`-th |
| graph coloring, clique cover | colors | `v` has color `p` |
| maximum cut | 1 | `v` is on the cut side |
| independent set, vertex cover, densest subgraph | 1 | `v` is selected |
-/

namespace GraphQubo

/-- A graph problem with its parameters. -/
inductive Problem (K : Type) where
  /-- The heaviest path between two nodes in exactly `steps` steps. -/
  | longestPath (startNode terminalNode steps : Nat)
  /-- The shortest closed tour through every node. -/
  | travelingSalesperson (lengthFactor : K)
  /-- Any closed tour through every node. -/
  | hamiltonianCycle
  /-- One color for each node, two for adjacent ones. -/
  | graphColoring (colors : Nat)
  /-- One color for each node, nodes of one color pairwise adjacent. -/
  | cliqueCover (colors : Nat)
  /-- Two sides with as many edges between them as possible. -/
  | maxCut
  /-- As many pairwise non-adjacent nodes as possible. -/
  | maximumIndependentSet
  /-- As few nodes as possible that touch every edge. -/
  | minimumVertexCover
  /-- `k` nodes with as many edges between them as possible. -/
  | densestSubgraph (k : Nat)
  deriving DecidableEq, Repr

namespace Problem

open Coefficient (whole)

variable {K : Type} [Coefficient K]

/-- The name of a problem in reports. -/
def name : Problem K → String
  | longestPath .. => "longest_path"
  | travelingSalesperson _ => "traveling_salesperson"
  | hamiltonianCycle => "hamiltonian_cycle"
  | graphColoring _ => "graph_coloring"
  | cliqueCover _ => "clique_cover"
  | maxCut => "max_cut"
  | maximumIndependentSet => "maximum_independent_set"
  | minimumVertexCover => "minimum_vertex_cover"
  | densestSubgraph _ => "densest_k_subgraph"

/-- How many positions a node can occupy. -/
def positions (g : Graph K) : Problem K → Nat
  | longestPath _ _ steps => steps + 1
  | travelingSalesperson _ | hamiltonianCycle => max g.nodeCount 1
  | graphColoring colors | cliqueCover colors => colors
  | _ => 1

/-- The node at the first position, if the problem fixes it. -/
def startNode : Problem K → Option Nat
  | longestPath node _ _ => some node
  | _ => none

/-- The node at the last position, if the problem fixes it. -/
def terminalNode : Problem K → Option Nat
  | longestPath _ node _ => some node
  | _ => none

/-- Strength `a` on every violation of a closed tour: each node once, one node
at each position, and no step without an edge.  Both directions of a step are
written. -/
def tourConstraints (a : K) : Constraints K :=
  { Constraints.empty with doubleCountEdges := true, doubleCountCycles := true }.setAll
    [(.diagonal, -whole 2 * a), (.oneNodeManyPositions, whole 2 * a),
      (.onePositionManyNodes, whole 2 * a), (.invalidTraversal, a),
      (.invalidTraversalCycles, a)]

/-- The penalty weights of a problem over a graph; a problem that scales them
by the heaviest edge needs a weight on every edge. -/
def configuration (g : Graph K) : Problem K → Except (Error K) (Constraints K)
  | longestPath _ _ steps => do
    let a := whole steps * (← g.maxWeight)
    return Constraints.empty.setAll
      [(.diagonal, -a), (.startNodeScore, -a), (.terminalNodeScore, -a),
        (.onePositionManyNodes, whole 2 * a), (.oneNodeManyPositions, a),
        (.edgeWeightsFactor, -1), (.invalidTraversal, a), (.invalidTraversalSelf, a)]
  | travelingSalesperson b => do
    let a := b * (← g.maxWeight) + 1
    return (tourConstraints a).setAll
      [(.edgeWeightsFactor, b), (.edgeWeightsCyclesFactor, b)]
  | hamiltonianCycle => return tourConstraints 1
  | graphColoring _ =>
    return Constraints.empty.setAll
      [(.diagonal, -whole 4), (.oneNodeManyPositions, whole 8), (.edges, whole 4)]
  | cliqueCover _ =>
    return Constraints.empty.setAll
      [(.diagonal, -1), (.oneNodeManyPositions, whole 2), (.nonEdges, whole 2)]
  | maxCut =>
    return Constraints.empty.setAll [(.nodesWithEdges, -1), (.edges, whole 2)]
  | maximumIndependentSet =>
    return Constraints.empty.setAll [(.diagonal, -1), (.edges, whole 2)]
  | minimumVertexCover =>
    return Constraints.empty.setAll
      [(.diagonal, 1), (.nodesWithEdges, -whole 2), (.edges, whole 2)]
  | densestSubgraph k =>
    let n : K := whole g.nodeCount
    return Constraints.empty.setAll
      [(.diagonal, n - whole 2 * n * whole k), (.onePositionManyNodes, whole 2 * n),
        (.edges, -1)]

/-- What a problem is compiled over. -/
def layout (g : Graph K) (p : Problem K) : Layout K :=
  ⟨g, p.positions g, p.startNode, p.terminalNode⟩

/-- The matrix of a problem over a graph. -/
def toMatrix (g : Graph K) (p : Problem K) : Except (Error K) (Matrix K) := do
  (p.layout g).generate (← p.configuration g)

/-- The matrix of a problem, if there is memory for it. -/
def toMatrixInMemory (g : Graph K) (p : Problem K) : Except (Error K) (Matrix K) := do
  (p.layout g).generateInMemory (← p.configuration g)

/-- The reports of compiling a problem. -/
def log (g : Graph K) (p : Problem K) : List (LogEvent K) :=
  match p.configuration g with
  | .ok c => .problemConfigured p.name c.enabled.length :: (p.layout g).log c false
  | .error _ => []

end Problem

end GraphQubo
