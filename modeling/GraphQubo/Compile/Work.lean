import GraphQubo.Compile.Plan

/-!
# GraphQubo.Compile.Work

How many steps a compilation takes, without compiling.

A step is one turn of the innermost loop of a family: one per enabled start or
terminal score, one per variable for `diagonal`, and for the other families one
per node, position and neighbour, non-neighbour, later node or later position,
whether or not the pair is then written.  The count follows from the degrees of
the nodes and stops at the largest 64-bit word; every product and every sum on
the way stops there too.
-/

namespace GraphQubo

/-- A number, or the largest word if it is larger. -/
def saturate (n : Nat) : Nat := min n (wordLimit - 1)

/-- The sum of counts, stopped at the largest word. -/
def saturatingSum (counts : List Nat) : Nat :=
  counts.foldl (fun total n => saturate (total + saturate n)) 0

/-- How many pairs `k` things make. -/
def pairCount (k : Nat) : Nat := saturate (k * (k - 1)) / 2

variable {K : Type} [Coefficient K]

/-- Totals over all nodes that the counts of the families are made of. -/
structure Degrees where
  adjacent : Nat
  successors : Nat
  nonAdjacent : Nat
  nonSuccessors : Nat

/-- The totals of a graph. -/
def Degrees.of (g : Graph K) : Degrees where
  adjacent := saturatingSum (g.nodes.map g.degree)
  successors := saturatingSum (g.nodes.map fun v => (g.neighbors v .outgoing).length)
  nonAdjacent := saturatingSum (g.nodes.map fun v => (g.nonNeighbors v .any).length)
  nonSuccessors := saturatingSum (g.nodes.map fun v => (g.nonNeighbors v .outgoing).length)

/-- The steps of one family over `n` nodes and `p` positions. -/
def Degrees.steps (d : Degrees) (n p : Nat) : Penalty → Nat
  | .startNodeScore | .terminalNodeScore => 1
  | .diagonal => saturate (n * p)
  | .nodesWithEdges | .edges => saturate (d.adjacent * p)
  | .oneNodeManyPositions => saturate (n * pairCount p)
  | .onePositionManyNodes => saturate (p * pairCount n)
  | .nonEdges => saturate (d.nonAdjacent * p)
  | .edgeWeightsFactor => saturate (d.successors * (p - 1))
  | .edgeWeightsCyclesFactor => d.successors
  | .invalidTraversal => saturate (d.nonSuccessors * (p - 1))
  | .invalidTraversalCycles => d.nonSuccessors
  | .invalidTraversalSelf => saturate (n * (p - 1))

/-- The steps of a plan. -/
def Plan.work (p : Plan K) : Nat :=
  let degrees := Degrees.of p.layout.graph
  saturatingSum (p.terms.map fun t =>
    degrees.steps p.layout.graph.nodeCount p.numbering.positions t.penalty)

/-- The steps that compiling a configuration over a layout takes. -/
def Layout.estimateWork (l : Layout K) (c : Constraints K) : Except (Error K) Nat := do
  return (← l.plan c).work

end GraphQubo
