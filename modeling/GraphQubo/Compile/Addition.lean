import GraphQubo.Compile.Plan

/-!
# GraphQubo.Compile.Addition

What each node adds to the matrix, as a list of cell additions.

The additions of a node are listed position by position, and for a position
family by family.  Every one of them lies in the rows of that node, so nodes
never meet in a cell.

1. A pair of nodes `(v, w)` is written by `v` when `v < w`, and when `v > w`
   only if the family is doubled.
2. A family of steps goes from a position to the next one; a cyclic family only
   from the last position to the first.
3. Neighbours count in either direction for the families within a position;
   for the families of steps only edges that leave the node count.
4. A walked self loop joins two variables of one node and is written above the
   diagonal.
-/

namespace GraphQubo

variable {K : Type} [Coefficient K]

/-- A value to be added to a cell. -/
structure Addition (K : Type) where
  row : Nat
  col : Nat
  value : K
  deriving DecidableEq, Repr

/-- Whether a node writes the pair it forms with another one. -/
def writesPair (node other : Nat) (doubled : Bool) : Bool :=
  node < other || (doubled && other < node)

/-- What a node has to know about the graph. -/
structure NodeView (K : Type) where
  neighbors : List Nat
  nonNeighbors : List Nat
  successors : List (Nat × Option K)
  nonSuccessors : List Nat
  hasSelfLoop : Bool

/-- What a node knows about a graph. -/
def NodeView.of (g : Graph K) (node : Nat) : NodeView K where
  neighbors := g.neighbors node .any
  nonNeighbors := g.nonNeighbors node .any
  successors := g.weightedSuccessors node
  nonSuccessors := g.nonNeighbors node .outgoing
  hasSelfLoop := g.hasSelfLoop node

namespace Plan

/-- The number of a variable. -/
def number (p : Plan K) (node position : Nat) : Nat := p.numbering.number node position

/-- The last position. -/
def lastPosition (p : Plan K) : Nat := p.numbering.lastPosition

/-- Where a step from `position` leads, if the family has one there. -/
def stepFrom? (p : Plan K) (penalty : Penalty) (position : Nat) : Option Nat :=
  if penalty.wrapsAround then
    if position = p.lastPosition then some 0 else none
  else if position < p.lastPosition then some (position + 1)
  else none

/-- The addition for a walked edge, in the upper of the two cells if the edge
is a self loop. -/
def walked (p : Plan K) (node position : Nat) (weight : K) (next : Nat)
    (edge : Nat × Option K) : Except (Error K) (Addition K) :=
  match edge with
  | (other, some w) =>
    let row := p.number node position
    let col := p.number other next
    .ok (if node = other then ⟨min row col, max row col, w * weight⟩
      else ⟨row, col, w * weight⟩)
  | (other, none) => .error (.unweightedEdge node other)

/-- What one family adds for one node at one position. -/
def contribution (p : Plan K) (view : NodeView K) (node position : Nat)
    (t : Term K) : Except (Error K) (List (Addition K)) :=
  let row := p.number node position
  let last := p.lastPosition
  let add (col : Nat) : Addition K := ⟨row, col, t.weight⟩
  match t.penalty with
  | .startNodeScore =>
    .ok (if p.layout.startNode = some node ∧ position = 0 then [add row] else [])
  | .terminalNodeScore =>
    .ok (if p.layout.terminalNode = some node ∧ position = last then [add row] else [])
  | .diagonal => .ok [add row]
  | .nodesWithEdges => .ok (view.neighbors.map fun _ => add row)
  | .oneNodeManyPositions =>
    .ok ((List.range' (position + 1) (last - position)).map fun later =>
      add (p.number node later))
  | .onePositionManyNodes =>
    .ok ((List.range' (node + 1) (p.layout.graph.nodeCount - (node + 1))).map fun other =>
      add (p.number other position))
  | .edges =>
    .ok ((view.neighbors.filter fun other =>
      node = other || writesPair node other t.doubled).map fun other =>
        add (p.number other position))
  | .nonEdges =>
    .ok ((view.nonNeighbors.filter fun other => writesPair node other t.doubled).map
      fun other => add (p.number other position))
  | .edgeWeightsFactor | .edgeWeightsCyclesFactor =>
    match p.stepFrom? t.penalty position with
    | none => .ok []
    | some next =>
      (view.successors.filter fun edge =>
        node = edge.1 || writesPair node edge.1 t.doubled).mapM
          (p.walked node position t.weight next)
  | .invalidTraversal | .invalidTraversalCycles =>
    match p.stepFrom? t.penalty position with
    | none => .ok []
    | some next =>
      .ok ((view.nonSuccessors.filter fun other => writesPair node other t.doubled).map
        fun other => add (p.number other next))
  | .invalidTraversalSelf =>
    .ok (if position < last ∧ view.hasSelfLoop = false then
      [add (p.number node (position + 1))] else [])

/-- What all families add for one node at one position. -/
def additionsAt (p : Plan K) (view : NodeView K) (node position : Nat) :
    Except (Error K) (List (Addition K)) := do
  return (← p.terms.mapM (p.contribution view node position)).flatten

/-- Everything a node adds, in order. -/
def additions (p : Plan K) (node : Nat) : Except (Error K) (List (Addition K)) := do
  let view := NodeView.of p.layout.graph node
  return (← (List.range p.numbering.positions).mapM (p.additionsAt view node)).flatten

end Plan

end GraphQubo
